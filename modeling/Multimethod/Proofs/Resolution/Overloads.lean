import Mathlib.Data.List.TakeWhile
import Multimethod.Proofs.Resolution.Overriding

/-!
# Overload sets

Registration checks a definition at four points, and adds it only if all are passed. So a method is in
the overload set of its own name and owner and in no other, and no two of a set have the same
restrictions (`MethodTable.Consistent`). By the last check the set has been made, but a definition
that fails there repeats one of the set, which was there before: so a definition that fails leaves no
trace in what can be asked of the methods (`Registry.registered_consistent`).
-/

namespace Multimethod

open Relation TypeTable

/-- Parameters in front of one without a default have none, so a call may leave out just those that
have one. -/
theorem Definition.acceptsArity_iff {d : Definition} (h : MethodTable.misplacedParam? d = none)
    {n : Nat} : d.acceptsArity n = true ↔
      n ≤ d.params.length ∧ ∀ p ∈ d.params.drop n, p.default ≠ none := by
  constructor
  · intro hn
    refine ⟨?_, MethodTable.default_of_acceptsArity h hn⟩
    simp only [acceptsArity, Bool.and_eq_true, decide_eq_true_eq] at hn
    exact hn.2
  · rintro ⟨hle, hdefault⟩
    simp only [acceptsArity, Bool.and_eq_true, decide_eq_true_eq]
    refine ⟨Nat.le_of_not_lt fun hlt => ?_, hle⟩
    -- The first parameter left out would be one of those that have no default.
    obtain ⟨p, hp⟩ := List.exists_mem_of_ne_nil _ (List.drop_eq_nil_iff.not.2 (Nat.not_le_of_lt hlt))
    have hnone := List.mem_takeWhile_imp (List.mem_of_mem_drop hp)
    refine hdefault p ?_ (Option.isNone_iff_eq_none.1 hnone)
    rw [← List.takeWhile_append_dropWhile (p := (·.default.isNone)) (l := d.params),
      List.drop_append]
    exact List.mem_append_left _ hp

namespace MethodTable

variable {h : Hierarchy} {names : NameTable} {t u : TypeTable} {ms ms' : MethodTable} {m : MethodId}

/-! ## What registration checks -/

theorem le_of_add {d : Definition} {r : Except TypeError MethodId} (H : t.WF)
    (hrun : (add h names d).run ms t = ((r, ms'), u)) : t ≤ u := by
  obtain ⟨r', ms'', u', hrun', -, hle, -⟩ := add_spec h names H ms d
  cases hrun.symm.trans hrun'
  exact hle

theorem length_of_resolveParams {ps : List Param} {rs : List (Option TypeId)}
    (hrun : (resolveParams h names ps).run t = (.ok rs, u)) (H : t.WF) : rs.length = ps.length := by
  have hpost := (resolveParams_settles h names ps H).post
  rw [hrun] at hpost
  exact hpost.length_eq.symm

/-! ## What every registered method has passed -/

/-- Defaults come last, each parameter has an entry for its restriction, and methods with the same
name, owner and restrictions are the same. -/
structure Valid (ms : MethodTable) : Prop where
  placed : ∀ m md, ms.get? m = some md → misplacedParam? md.definition = none
  length : ∀ m md, ms.get? m = some md → md.restrictions.length = md.definition.params.length
  distinct : ∀ l m ml mm, ms.get? l = some ml → ms.get? m = some mm →
    ml.definition.name = mm.definition.name → ml.owner = mm.owner →
    ml.restrictions = mm.restrictions → l = m

namespace Valid

theorem empty : Valid .empty where
  placed m md hm := by simp [get?, MethodTable.empty] at hm
  length m md hm := by simp [get?, MethodTable.empty] at hm
  distinct l m ml mm hl := by simp [get?, MethodTable.empty] at hl

/-- A method that has passed all checks may be added. -/
theorem push (V : ms.Valid) (L : ms.Listed) {md : Method}
    (hplaced : misplacedParam? md.definition = none)
    (hlength : md.restrictions.length = md.definition.params.length)
    (hdup : ms.duplicate? md.definition.name md.owner md.restrictions = none) :
    (ms.push md).Valid := by
  have cases {m : MethodId} {md' : Method} (hm : (ms.push md).get? m = some md') :
      m = ⟨ms.size⟩ ∧ md' = md ∨ ms.get? m = some md' := by
    rw [get?_push] at hm
    split at hm
    · rename_i heq
      cases hm
      exact .inl ⟨Handle.ext_index heq, rfl⟩
    · exact .inr hm
  have fresh {m : MethodId} {md' : Method} (hm : ms.get? m = some md')
      (hn : md'.definition.name = md.definition.name) (ho : md'.owner = md.owner) :
      md'.restrictions ≠ md.restrictions :=
    ne_of_duplicate? hdup (L.mem_overloads.2 ⟨md', hm, hn, ho⟩) hm
  refine ⟨fun m md' hm => ?_, fun m md' hm => ?_, fun l m ml mm hl hm hn ho hr => ?_⟩
  · rcases cases hm with ⟨-, rfl⟩ | hm
    · exact hplaced
    · exact V.placed m md' hm
  · rcases cases hm with ⟨-, rfl⟩ | hm
    · exact hlength
    · exact V.length m md' hm
  · rcases cases hl with ⟨rfl, rfl⟩ | hl'
    · rcases cases hm with ⟨rfl, -⟩ | hm'
      · rfl
      · exact absurd hr.symm (fresh hm' hn.symm ho.symm)
    · rcases cases hm with ⟨rfl, rfl⟩ | hm'
      · exact absurd hr (fresh hl' hn ho)
      · exact V.distinct l m ml mm hl' hm' hn ho hr

end Valid

/-- A method is in the overload set of its name and owner and in no other, in the order of
registration; each of its parameters has an entry for its restriction; no two of a set have the same
restrictions; and a call may leave out just the parameters with a default. -/
structure Consistent (ms : MethodTable) : Prop where
  mem_overloads_iff : ∀ m n o, m ∈ ms.overloads n o ↔
    ∃ md, ms.get? m = some md ∧ md.definition.name = n ∧ md.owner = o
  increasing : ∀ n o, (ms.overloads n o).Pairwise (· < ·)
  length : ∀ m md, ms.get? m = some md → md.restrictions.length = md.definition.params.length
  distinct : ∀ n o, (ms.overloads n o).Pairwise fun l m => ∀ ml mm, ms.get? l = some ml →
    ms.get? m = some mm → ml.restrictions ≠ mm.restrictions
  arity : ∀ m md n, ms.get? m = some md → (md.definition.acceptsArity n = true ↔
    n ≤ md.definition.params.length ∧ ∀ p ∈ md.definition.params.drop n, p.default ≠ none)

theorem Valid.consistent (V : ms.Valid) (L : ms.Listed) : ms.Consistent where
  mem_overloads_iff _ _ _ := L.mem_overloads
  increasing := L.pairwise_overloads
  length := V.length
  distinct n o := by
    refine (L.pairwise_overloads n o).imp_of_mem fun {l m} hl hm hlt ml mm hml hmm hr => ?_
    obtain ⟨ml', hml', hn, ho⟩ := L.mem_overloads.1 hl
    obtain ⟨mm', hmm', hn', ho'⟩ := L.mem_overloads.1 hm
    cases hml.symm.trans hml'
    cases hmm.symm.trans hmm'
    obtain rfl := V.distinct l m ml mm hml hmm (hn.trans hn'.symm) (ho.trans ho'.symm) hr
    exact Nat.lt_irrefl _ hlt
  arity _ _ _ hm := Definition.acceptsArity_iff (V.placed _ _ hm)

end MethodTable

namespace Registry

variable {g g' : Registry} {t t' : TypeTable} {p q : Registry × TypeTable}

theorem add_run {r : Except TypeError MethodId} {ms : MethodTable} {u : TypeTable} {d : Definition}
    (hrun : (MethodTable.add g.hierarchy g.names d).run g.methods t = ((r, ms), u)) :
    Registry.add (g, t) d = ({ g with methods := ms }, u) := by
  simp only [Registry.add, hrun]

theorem Sound.valid_add (S : p.1.Sound p.2) (V : p.1.methods.Valid) (d : Definition) :
    (Registry.add p d).1.methods.Valid := by
  obtain ⟨g, t⟩ := p
  obtain ⟨r, ms, u, hrun⟩ : ∃ r ms u,
    (MethodTable.add g.hierarchy g.names d).run g.methods t = ((r, ms), u) := ⟨_, _, _, rfl⟩
  rw [add_run hrun]
  cases r with
  | error e =>
    obtain rfl := MethodTable.add_error hrun
    exact V
  | ok m =>
    obtain ⟨-, o, rs, -, hplaced, hparams, hdup, rfl⟩ := MethodTable.add_ok hrun
    exact V.push S.listed hplaced (MethodTable.length_of_resolveParams hparams S.types) hdup

theorem Reachable.valid (hg : g.Reachable t) : g.methods.Valid := by
  refine hg.induction (P := fun p => p.1.methods.Valid) (fun _ _ _ => .empty) fun p q hs S V => ?_
  cases hs with
  | intern => exact V
  | hierarchy => exact V
  | add p d => exact S.valid_add V d

/-! ## Registering definitions -/

/-- Register some definitions, leaving out those that fail. -/
def addAll (p : Registry × TypeTable) (ds : List Definition) : Registry × TypeTable :=
  let r := (MethodTable.addAll p.1.hierarchy p.1.names ds).run p.1.methods p.2
  ({ p.1 with methods := r.1.2 }, r.2)

/-- A call that registers one definition, or several. -/
inductive Registers : Registry × TypeTable → Registry × TypeTable → Prop where
  | add (p : Registry × TypeTable) (d : Definition) : Registers p (Registry.add p d)
  | addAll (p : Registry × TypeTable) (ds : List Definition) : Registers p (Registry.addAll p ds)

/-- Several definitions are registered one after the other. -/
theorem addAll_eq_foldl (p : Registry × TypeTable) (ds : List Definition) :
    Registry.addAll p ds = ds.foldl Registry.add p := by
  induction ds generalizing p with
  | nil => rfl
  | cons d ds ih =>
    rw [List.foldl_cons, ← ih]
    simp only [Registry.addAll, MethodTable.addAll_cons]
    rfl

theorem Registers.reachable (hs : Registers p q) (hp : p.1.Reachable p.2) : q.1.Reachable q.2 := by
  cases hs with
  | add d => exact hp.trans (.single (.add p d))
  | addAll ds =>
    rw [addAll_eq_foldl]
    exact hp.trans (steps_add ds p)

/-- What can be asked of the methods has the same answers, and they are the same also in what no
look-up tells: no overload set was made. -/
structure SameMethods (p q : Registry × TypeTable) : Prop where
  table : q.1.methods = p.1.methods
  size : q.1.methods.size = p.1.methods.size
  ids : q.1.methods.ids = p.1.methods.ids
  get? : ∀ m, q.1.methods.get? m = p.1.methods.get? m
  overloads : ∀ n o, q.1.methods.overloads n o = p.1.methods.overloads n o
  candidates : ∀ n receiver, (∀ a ∈ receiver, p.2.Has a) →
    q.1.methods.candidates q.1.hierarchy q.2 n receiver =
      p.1.methods.candidates p.1.hierarchy p.2 n receiver
  signatures : ∀ n receiver, (∀ a ∈ receiver, p.2.Has a) →
    q.1.methods.signatures q.1.hierarchy q.2 q.1.names n receiver =
      p.1.methods.signatures p.1.hierarchy p.2 p.1.names n receiver

/-- The method `m` is added at the end, and to the overload set of its name and owner. -/
structure Appends (p q : Registry × TypeTable) (d : Definition) (m : MethodId) : Prop where
  size : q.1.methods.size = p.1.methods.size + 1
  ids : q.1.methods.ids = p.1.methods.ids ++ [m]
  old : ∀ l, l ≠ m → q.1.methods.get? l = p.1.methods.get? l
  new : ∃ md, p.1.methods.get? m = none ∧ q.1.methods.get? m = some md ∧ md.definition = d ∧
    MethodTable.resolveOwner p.1.hierarchy p.1.names d = .ok md.owner ∧
    ∀ n o, q.1.methods.overloads n o = p.1.methods.overloads n o ++
      if n = d.name ∧ o = md.owner then [m] else []

theorem Appends.push {d : Definition} {o : MethodOwner}
    (ho : MethodTable.resolveOwner g.hierarchy g.names d = .ok o) {rs : List (Option TypeId)} :
    Appends (g, t) ({ g with methods := g.methods.push ⟨d, o, rs⟩ }, t') d ⟨g.methods.size⟩ where
  size := by simp [MethodTable.size, MethodTable.push]
  ids := by simp [MethodTable.ids, MethodTable.size, MethodTable.push, List.range_succ]
  old l hl := by
    rw [MethodTable.get?_push, if_neg fun h => hl (Handle.ext_index h)]
  new := by
    refine ⟨⟨d, o, rs⟩, Array.getElem?_eq_none (Nat.le_refl _), MethodTable.get?_push_size _, rfl, ho,
      fun n p => ?_⟩
    rw [MethodTable.overloads_push]
    split <;> simp

/-- A definition is added, or, if it fails, nothing can be seen of it. -/
def AddsOrKeeps (p : Registry × TypeTable) (d : Definition) : Prop :=
  match ((MethodTable.add p.1.hierarchy p.1.names d).run p.1.methods p.2).1.1 with
  | .error _ => SameMethods p (Registry.add p d)
  | .ok m => Appends p (Registry.add p d) d m

theorem Sound.addsOrKeeps (S : p.1.Sound p.2) (d : Definition) : AddsOrKeeps p d := by
  obtain ⟨g, t⟩ := p
  obtain ⟨r, ms, u, hrun⟩ : ∃ r ms u,
    (MethodTable.add g.hierarchy g.names d).run g.methods t = ((r, ms), u) := ⟨_, _, _, rfl⟩
  have hle : t ≤ u := MethodTable.le_of_add S.types hrun
  simp only [AddsOrKeeps, hrun, add_run hrun]
  cases r with
  | error e =>
    obtain rfl := MethodTable.add_error hrun
    exact {
      table := rfl
      size := rfl
      ids := rfl
      get? := fun _ => rfl
      overloads := fun _ _ => rfl
      candidates := fun n _ hr => g.methods.candidates_mono g.hierarchy hr hle n
      signatures := fun n _ hr =>
        g.methods.signatures_mono g.hierarchy S.types S.restrictions hle g.names n hr }
  | ok m =>
    obtain ⟨rfl, o, rs, ho, -, -, -, rfl⟩ := MethodTable.add_ok hrun
    exact .push ho

/-- Whatever is registered, one by one or together, the overload sets are consistent, and one more
definition is added at the end of its overload set or, if it fails, leaves the methods as they are. -/
theorem registered_consistent (hg : g.Reachable t) (hs : ReflTransGen Registers (g, t) (g', t')) :
    g'.methods.Consistent ∧ ∀ d, AddsOrKeeps (g', t') d := by
  have reachable : ∀ p, ReflTransGen Registers (g, t) p → p.1.Reachable p.2 := by
    intro p hp
    induction hp with
    | refl => exact hg
    | tail _ hs ih => exact hs.reachable ih
  have hg' : g'.Reachable t' := reachable _ hs
  exact ⟨hg'.valid.consistent hg'.sound.listed, fun d => hg'.sound.addsOrKeeps d⟩

/-- Two functions of a number, the second with one more parameter; the first is repeated. -/
def repeating : List Definition :=
  [restricted ⟨11⟩ none [.named ⟨7⟩], restricted ⟨11⟩ none [.named ⟨7⟩, .named ⟨9⟩],
    restricted ⟨11⟩ none [.named ⟨7⟩]]

/-- The repetition is left out, then and once more. -/
theorem registered_consistent_repeating :
    let p := family []
    let q := Registry.addAll p repeating
    let again := restricted ⟨11⟩ none [.named ⟨7⟩]
    p.1.Reachable p.2 ∧ ReflTransGen Registers p q ∧ q.1.methods.overloads ⟨11⟩ .free = [⟨0⟩, ⟨1⟩] ∧
      q.1.methods.Consistent ∧ AddsOrKeeps q (restricted ⟨11⟩ none [.named ⟨9⟩]) ∧
      ((MethodTable.add q.1.hierarchy q.1.names again).run q.1.methods q.2).1.1.toOption = none ∧
      AddsOrKeeps q again :=
  have hs : ReflTransGen Registers (family []) (Registry.addAll (family []) repeating) :=
    .single (.addAll _ _)
  have hconsistent := registered_consistent (family_reachable []) hs
  ⟨family_reachable [], hs, by decide +kernel, hconsistent.1, hconsistent.2 _, by decide +kernel,
    hconsistent.2 _⟩

end Registry

end Multimethod
