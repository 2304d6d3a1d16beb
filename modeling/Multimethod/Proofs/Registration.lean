import Multimethod.Proofs.Hierarchy.Restriction
import Multimethod.Proofs.Inference.Top
import Multimethod.Proofs.MethodTable

/-!
# Registered sources

What registration makes of the classes and definitions of a source: the methods have the owners and
restrictions that their definitions name, and overload sets hold methods of their name and owner
(`MethodTable.Registered`). Inference of a registered source starts in a state that is fine
(`Prepared.ok`).
-/

namespace Multimethod

open TypeTable

/-! ## Restrictions -/

namespace Hierarchy

variable (h : Hierarchy) (names : NameTable) (span : Span)

theorem requireClass_spec (n : Name) : (∃ c, h.find? n = some c ∧
      h.requireClass names n span = .ok c) ∨
    ∃ e, ¬ e.IsDivergence ∧ h.requireClass names n span = .error e := by
  unfold requireClass
  cases hf : h.find? n with
  | some c => exact .inl ⟨c, rfl, rfl⟩
  | none => exact .inr ⟨_, (fun ⟨_, _, hc⟩ => by cases hc), rfl⟩

/-- The type that a restriction stands for; a name stands for the instances of its class. -/
theorem resolveRestriction_settles (r : Restriction) {t : TypeTable} (H : t.WF) :
    Settles t (h.resolveRestriction names span r).run (Ends (fun a u => u.Has a ∧
      ∀ n, r = .named n → ∃ c, h.find? n = some c ∧ u.shape a = .exact c)
      fun e _ => ¬ e.IsDivergence) := by
  refine (h.resolveRestriction_stands names span r H).mono fun x u hu _ hx => ?_
  cases x with
  | ok a =>
    obtain ⟨hs, hknown⟩ := hx
    refine ⟨hs.1, ?_⟩
    rintro n rfl
    obtain ⟨c, hc⟩ := unknown?_eq_none.1 hknown n (.head _)
    exact ⟨c, hc, hs.named hu hc⟩
  | error e =>
    obtain ⟨n, -, rfl⟩ := hx
    rintro ⟨_, _, ⟨⟩⟩

end Hierarchy

namespace MethodTable

variable {h : Hierarchy} {names : NameTable} {t u : TypeTable} {ms ms' : MethodTable}

/-- `r` is what the restriction of the parameter stands for. -/
def Restricts (h : Hierarchy) (t : TypeTable) (p : Param) (r : Option TypeId) : Prop :=
  match p.restriction with
  | none => r = none
  | some w => ∃ a, r = some a ∧ t.Has a ∧
      ∀ n, w = .named n → ∃ c, h.find? n = some c ∧ t.shape a = .exact c

theorem Restricts.mono {p : Param} {r : Option TypeId} (hr : Restricts h t p r) (hle : t ≤ u) :
    Restricts h u p r := by
  unfold Restricts at hr ⊢
  split
  · simp_all
  · rename_i w hw
    simp only [hw] at hr
    obtain ⟨a, ha, hhas, hn⟩ := hr
    refine ⟨a, ha, hhas.mono hle, fun n hwn => ?_⟩
    obtain ⟨c, hc, hs⟩ := hn n hwn
    exact ⟨c, hc, (hhas.shape_eq hle).trans hs⟩

theorem Restricts.has {p : Param} {a : TypeId} (hr : Restricts h t p (some a)) : t.Has a := by
  unfold Restricts at hr
  split at hr
  · cases hr
  · obtain ⟨b, hb, hhas, -⟩ := hr
    cases hb
    exact hhas

variable (h names) in
theorem resolveParams_settles (ps : List Param) : ∀ {t : TypeTable}, t.WF →
    Settles t (resolveParams h names ps).run
      (Ends (fun rs u => List.Forall₂ (Restricts h u) ps rs) fun e _ => ¬ e.IsDivergence) := by
  induction ps with
  | nil => exact fun H => .pure H .nil
  | cons p ps ih =>
    intro t H
    simp only [resolveParams]
    have rest {a : Option TypeId} {u : TypeTable} (hu : u.WF) (ha : Restricts h u p a) :
        Settles u (do return a :: (← resolveParams h names ps) :
          ExceptT TypeError (StateM TypeTable) (List (Option TypeId))).run
          (Ends (fun rs u => List.Forall₂ (Restricts h u) (p :: ps) rs)
            fun e _ => ¬ e.IsDivergence) := by
      refine (ih hu).bindExcept (fun as v hv hle has => ?_) fun e _ _ _ he => he
      exact .pure hv (.cons (ha.mono hle) has)
    cases hp : p.restriction with
    | none =>
      simp only [pure_bind]
      exact rest H (by simp only [Restricts, hp])
    | some w =>
      simp only [bind_map_left]
      refine (h.resolveRestriction_settles names p.span w H).bindExcept (fun a u hu _ ha => ?_)
        fun e _ _ _ he => he
      refine rest hu ?_
      simp only [Restricts, hp]
      exact ⟨a, rfl, ha⟩

/-! ## Registering a definition -/

/-- Parameters that a call leaves out have defaults. -/
theorem default_of_acceptsArity {d : Definition} (h : misplacedParam? d = none) {n : Nat}
    (hn : d.acceptsArity n = true) : ∀ p ∈ d.params.drop n, p.default ≠ none := by
  intro p hp
  simp only [Definition.acceptsArity, Bool.and_eq_true, decide_eq_true_eq] at hn
  rw [← List.takeWhile_append_dropWhile (p := (·.default.isNone)) (l := d.params),
    List.drop_append, List.drop_eq_nil_of_le hn.1, List.nil_append] at hp
  intro hd
  refine List.find?_eq_none.1 h p (List.mem_of_mem_drop hp) ?_
  rw [hd]
  rfl

/-! ### The method that a definition stands for -/

theorem resolveOwner_error {d : Definition} {e : TypeError}
    (he : resolveOwner h names d = .error e) : ¬ e.IsDivergence := by
  unfold resolveOwner at he
  have of_require {n : Name} {f : ClassId → MethodOwner}
      (he : f <$> h.requireClass names n d.span = .error e) : ¬ e.IsDivergence := by
    rcases h.requireClass_spec names d.span n with ⟨c, -, hr⟩ | ⟨e', hd, hr⟩
    · rw [hr] at he; cases he
    · rw [hr] at he; cases he; exact hd
  split at he
  · cases he
  · exact of_require he
  · exact of_require he

theorem resolveMethod_ok {d : Definition} {m : Method}
    (hrun : (resolveMethod h names d).run t = (.ok m, u)) :
    m.definition = d ∧ resolveOwner h names d = .ok m.owner ∧ misplacedParam? d = none ∧
      (resolveParams h names d.params).run t = (.ok m.restrictions, u) := by
  unfold resolveMethod at hrun
  cases ho : resolveOwner h names d with
  | error e =>
    rw [ho] at hrun
    cases hrun
  | ok o =>
    cases hp : misplacedParam? d with
    | some p =>
      rw [ho, hp] at hrun
      cases hrun
    | none =>
      rw [ho, hp] at hrun
      change (ExceptT.bindCont _ ((resolveParams h names d.params).run t).1 :
        StateM TypeTable (Except TypeError _)) ((resolveParams h names d.params).run t).2 = _ at hrun
      generalize (resolveParams h names d.params).run t = r at hrun ⊢
      obtain ⟨e | rs, v⟩ := r <;> cases hrun
      exact ⟨rfl, rfl, rfl, rfl⟩

variable (h names) in
theorem resolveMethod_settles (d : Definition) (H : t.WF) :
    Settles t (resolveMethod h names d).run (Ends (fun m u =>
      List.Forall₂ (Restricts h u) d.params m.restrictions) fun e _ => ¬ e.IsDivergence) := by
  unfold resolveMethod
  cases ho : resolveOwner h names d with
  | error e => exact .pure H (resolveOwner_error ho)
  | ok owner =>
    cases hp : misplacedParam? d with
    | some p => exact .pure H (by rintro ⟨_, _, ⟨⟩⟩)
    | none =>
      exact (resolveParams_settles h names d.params H).bindExcept
        (fun rs u hu _ hrs => .pure hu hrs) fun e u _ _ he => he

/-! ### What registering a definition does -/

theorem run_liftM_bind {α β : Type} (x : StateM TypeTable α)
    (f : α → StateT MethodTable (StateM TypeTable) β) :
    (liftM x >>= f : StateT MethodTable (StateM TypeTable) β).run ms =
      x >>= fun a => (f a).run ms := rfl

theorem run_liftM_bind_apply {α β : Type} {x : StateM TypeTable α} {a : α} (hx : x t = (a, u))
    (f : α → StateT MethodTable (StateM TypeTable) β) :
    (liftM x >>= f : StateT MethodTable (StateM TypeTable) β).run ms t = (f a).run ms u := by
  rw [run_liftM_bind]
  show (f (x t).1).run ms (x t).2 = _
  rw [hx]

variable (h names) in
/-- A definition stands for no method, it repeats the restrictions of another one, or it is added. -/
theorem add_cases (ms : MethodTable) (t : TypeTable) (d : Definition) :
    (∃ e u, (resolveMethod h names d).run t = (.error e, u) ∧
      (add h names d).run ms t = ((.error e, ms), u)) ∨
    (∃ m u, (resolveMethod h names d).run t = (.ok m, u) ∧
      ∃ previous, ms.duplicate? m.definition.name m.owner m.restrictions = some previous ∧
        (add h names d).run ms t = ((.error ⟨.duplicateDefinition (signatureOf h u names m)
          previous.definition.span, m.definition.span⟩, ms), u)) ∨
    ∃ m u, (resolveMethod h names d).run t = (.ok m, u) ∧
      ms.duplicate? m.definition.name m.owner m.restrictions = none ∧
      (add h names d).run ms t = ((.ok ⟨ms.size⟩, ms.push m), u) := by
  obtain ⟨r, u, hr⟩ : ∃ r u, (resolveMethod h names d).run t = (r, u) := ⟨_, _, rfl⟩
  cases r with
  | error e => exact .inl ⟨e, u, hr, run_liftM_bind_apply hr _⟩
  | ok m =>
    have henter : (add h names d).run ms t = (enter h names m).run ms u :=
      run_liftM_bind_apply hr _
    cases hdup : ms.duplicate? m.definition.name m.owner m.restrictions with
    | some previous =>
      exact .inr (.inl ⟨m, u, hr, previous, hdup, henter.trans (enter_of_some h names hdup)⟩)
    | none => exact .inr (.inr ⟨m, u, hr, hdup, henter.trans (enter_of_none h names hdup)⟩)

/-- A definition that is registered passes all checks and gets the next handle. -/
theorem add_ok {d : Definition} {m : MethodId}
    (hrun : (add h names d).run ms t = ((.ok m, ms'), u)) :
    m = ⟨ms.size⟩ ∧ ∃ o rs, resolveOwner h names d = .ok o ∧ misplacedParam? d = none ∧
      (resolveParams h names d.params).run t = (.ok rs, u) ∧ ms.duplicate? d.name o rs = none ∧
      ms' = ms.push ⟨d, o, rs⟩ := by
  rcases add_cases h names ms t d with ⟨_, _, -, heq⟩ | ⟨_, _, -, _, -, heq⟩ | ⟨md, v, hmd, hdup, heq⟩
  · cases hrun.symm.trans heq
  · cases hrun.symm.trans heq
  · cases hrun.symm.trans heq
    obtain ⟨rfl, ho, hp, hrs⟩ := resolveMethod_ok hmd
    exact ⟨rfl, md.owner, md.restrictions, ho, hp, hrs, hdup, rfl⟩

/-- A definition that fails leaves no trace among the methods. -/
theorem add_error {d : Definition} {e : TypeError}
    (hrun : (add h names d).run ms t = ((.error e, ms'), u)) : ms' = ms := by
  rcases add_cases h names ms t d with ⟨_, _, -, heq⟩ | ⟨_, _, -, _, -, heq⟩ | ⟨_, _, -, -, heq⟩ <;>
    cases hrun.symm.trans heq
  · rfl
  · rfl

/-- What comes of registering a definition. -/
def Added (h : Hierarchy) (names : NameTable) (ms : MethodTable) (d : Definition) (t : TypeTable) :
    Except TypeError MethodId → MethodTable → Prop
  | .error e, ms' => ¬ e.IsDivergence ∧ ms' = ms
  | .ok _, ms' => ∃ owner rs, resolveOwner h names d = .ok owner ∧
      misplacedParam? d = none ∧ List.Forall₂ (Restricts h t) d.params rs ∧
      ms' = ms.push ⟨d, owner, rs⟩

variable (h names) in
theorem add_spec (H : t.WF) (ms : MethodTable) (d : Definition) :
    ∃ r ms' u, (add h names d).run ms t = ((r, ms'), u) ∧ u.WF ∧ t ≤ u ∧
      Added h names ms d u r ms' := by
  have hs := resolveMethod_settles h names d H
  have hwf := hs.wf
  have hle := hs.le
  have hpost := hs.post
  rcases add_cases h names ms t d with
    ⟨e, u, hr, heq⟩ | ⟨m, u, hr, previous, -, heq⟩ | ⟨m, u, hr, -, heq⟩
  all_goals rw [hr] at hwf hle hpost
  · exact ⟨_, _, u, heq, hwf, hle, hpost, rfl⟩
  · exact ⟨_, _, u, heq, hwf, hle, by rintro ⟨_, _, ⟨⟩⟩, rfl⟩
  · obtain ⟨rfl, ho, hp, -⟩ := resolveMethod_ok hr
    exact ⟨_, _, u, heq, hwf, hle, m.owner, m.restrictions, ho, hp, hpost, rfl⟩

/-- The methods of a table come from some definitions, in which parameters with a default come last,
and have the owners and restrictions that these name. -/
structure Registered (h : Hierarchy) (names : NameTable) (ds : List Definition) (t : TypeTable)
    (ms : MethodTable) : Prop where
  definition : ∀ m md, ms.get? m = some md → md.definition ∈ ds
  placed : ∀ m md, ms.get? m = some md → misplacedParam? md.definition = none
  owner : ∀ m md, ms.get? m = some md → resolveOwner h names md.definition = .ok md.owner
  restrictions : ∀ m md, ms.get? m = some md →
    List.Forall₂ (Restricts h t) md.definition.params md.restrictions
  overload : ∀ n o m, m ∈ ms.overloads n o → ∃ md, ms.get? m = some md ∧
    md.definition.name = n ∧ md.owner = o

namespace Registered

variable {ds ds' : List Definition}

theorem empty : Registered h names ds t .empty where
  definition m md hm := by simp [get?, MethodTable.empty] at hm
  placed m md hm := by simp [get?, MethodTable.empty] at hm
  owner m md hm := by simp [get?, MethodTable.empty] at hm
  restrictions m md hm := by simp [get?, MethodTable.empty] at hm
  overload n o m hm := by simp [overloads, MethodTable.empty, OverloadSets.of] at hm

theorem mono (hr : Registered h names ds t ms) (hle : t ≤ u) : Registered h names ds u ms :=
  { hr with restrictions := fun m md hm => (hr.restrictions m md hm).imp fun _ _ h => h.mono hle }

theorem push (hr : Registered h names ds t ms) {d : Definition} (hd : d ∈ ds) {o : MethodOwner}
    (ho : resolveOwner h names d = .ok o) (hp : misplacedParam? d = none)
    {rs : List (Option TypeId)} (hrs : List.Forall₂ (Restricts h t) d.params rs) :
    Registered h names ds t (ms.push ⟨d, o, rs⟩) := by
  have cases {m : MethodId} {md : Method} (hm : (ms.push ⟨d, o, rs⟩).get? m = some md) :
      md = ⟨d, o, rs⟩ ∨ ms.get? m = some md := by
    rw [get?_push] at hm
    split at hm
    · cases hm; exact .inl rfl
    · exact .inr hm
  refine ⟨fun m md hm => ?_, fun m md hm => ?_, fun m md hm => ?_, fun m md hm => ?_,
    fun n o' m hm => ?_⟩
  · rcases cases hm with rfl | hm
    · exact hd
    · exact hr.definition m md hm
  · rcases cases hm with rfl | hm
    · exact hp
    · exact hr.placed m md hm
  · rcases cases hm with rfl | hm
    · exact ho
    · exact hr.owner m md hm
  · rcases cases hm with rfl | hm
    · exact hrs
    · exact hr.restrictions m md hm
  · have old (hm : m ∈ ms.overloads n o') : ∃ md, (ms.push ⟨d, o, rs⟩).get? m = some md ∧
        md.definition.name = n ∧ md.owner = o' := by
      obtain ⟨md, hmd, hn, ho'⟩ := hr.overload n o' m hm
      have hlt : m.index < ms.size := (Array.getElem?_eq_some_iff.1 hmd).1
      exact ⟨md, by rw [get?_push, if_neg (Nat.ne_of_lt hlt), hmd], hn, ho'⟩
    rw [overloads_push] at hm
    split at hm
    · rename_i hno
      rcases List.mem_append.1 hm with hm | hm
      · exact old hm
      · rw [List.mem_singleton] at hm
        subst hm
        exact ⟨_, by rw [get?_push, if_pos rfl], hno.1.symm, hno.2.symm⟩
    · exact old hm

variable (h names) in
/-- Registering definitions, leaving out those that fail. -/
theorem addAll : ∀ (ds' : List Definition) {ms : MethodTable} {t : TypeTable}, t.WF →
    (∀ d ∈ ds', d ∈ ds) → Registered h names ds t ms →
    ∃ es ms' t', (MethodTable.addAll h names ds').run ms t = ((es, ms'), t') ∧ t'.WF ∧ t ≤ t' ∧
      (∀ e ∈ es, ¬ e.IsDivergence) ∧ Registered h names ds t' ms'
  | [], ms, t, H, _, hr => ⟨[], ms, t, rfl, H, le_refl t, by simp, hr⟩
  | d :: ds', ms, t, H, hds, hr => by
    obtain ⟨r, ms₁, t₁, hrun, hwf, hle, hadd⟩ := add_spec h names H ms d
    have hone : (∀ e ∈ complaint r, ¬ e.IsDivergence) ∧ Registered h names ds t₁ ms₁ := by
      cases r with
      | ok m =>
        obtain ⟨o, rs, ho, hplaced, hrs, rfl⟩ := hadd
        exact ⟨by simp [complaint], (hr.mono hle).push (hds d (.head _)) ho hplaced hrs⟩
      | error e =>
        obtain ⟨hdivergence, rfl⟩ := hadd
        exact ⟨by simpa [complaint] using hdivergence, hr.mono hle⟩
    obtain ⟨es, ms', t', hrun', hwf', hle', hes, hr'⟩ := addAll ds' hwf
      (fun d' hd' => hds d' (.tail _ hd')) hone.2
    refine ⟨(complaint r).toList ++ es, ms', t', ?_, hwf', le_trans hle hle', fun e he => ?_, hr'⟩
    · rw [addAll_cons]
      show (let p := (MethodTable.add h names d).run ms t
        let q := (MethodTable.addAll h names ds').run p.1.2 p.2
        (((complaint p.1.1).toList ++ q.1.1, q.1.2), q.2)) = _
      simp only [hrun, hrun']
    · rcases List.mem_append.1 he with he | he
      · exact hone.1 e (Option.mem_toList.1 he)
      · exact hes e he

end Registered

end MethodTable

/-! ## Registering a source -/

/-- Registration does not read the limits. -/
theorem register_limits (names : NameTable) (source : Source) :
    ∃ (es : List TypeError) (ctx : Inference.Context) (σ : Inference.State), ∀ limits : Limits,
      register names source limits = (es, { ctx with limits }, σ) := by
  obtain ⟨core, names', hc⟩ : ∃ core names', CoreNames.intern names = (core, names') :=
    ⟨_, _, rfl⟩
  obtain ⟨h₀, t₀, hi⟩ : ∃ h₀ t₀, Hierarchy.initial core .initial = (h₀, t₀) := ⟨_, _, rfl⟩
  obtain ⟨ces, h₁, t₁, hd⟩ : ∃ ces h₁ t₁, h₀.declare names' source.classes t₀ =
    ((ces, h₁), t₁) := ⟨_, _, _, rfl⟩
  obtain ⟨es, ms, t, hm⟩ : ∃ es ms t,
    (MethodTable.addAll h₁ names' source.definitions).run .empty t₁ = ((es, ms), t) :=
    ⟨_, _, _, rfl⟩
  refine ⟨ces ++ es, ⟨names', core, ms, source.arena.terms,
    source.main.map (Arena.termAt source.arena.terms), {}⟩, ⟨t, h₁, {}, 0, false⟩, fun limits => ?_⟩
  unfold register
  simp only [hc, hi, hd, hm]

section
variable (names : NameTable) (source : Source) (limits : Limits)

/-- What is known once a source is registered. -/
structure Prepared (es : List TypeError) (ctx : Inference.Context) (σ : Inference.State) :
    Prop where
  limits : ctx.limits = limits
  terms : ctx.terms = source.arena.terms
  main : ctx.main = source.main.map (Arena.termAt source.arena.terms)
  names_le : names ≤ ctx.names
  interned : CoreNames.intern names = (ctx.core, ctx.names)
  core : ctx.core.Fits ctx.names
  types : σ.types.WF
  predefined : Hierarchy.Predefined ctx.core σ.hierarchy
  rooted : σ.hierarchy.Rooted
  superclass_eq : ∀ c : ClassId, c.index < 5 → c ≠ .object →
    σ.hierarchy.superclass c = some .object
  ivars : ∀ c i, σ.hierarchy.get? c = some i → i.ivars = ∅
  specs : σ.specs = {}
  methods : MethodTable.Registered σ.hierarchy ctx.names source.definitions σ.types ctx.methods
  errors : ∀ e ∈ es, ¬ e.IsDivergence

theorem register_prepared : Prepared names source limits (register names source limits).1
    (register names source limits).2.1 (register names source limits).2.2 := by
  obtain ⟨hle, hfits⟩ := CoreNames.intern_fits names
  obtain ⟨core, names', hc⟩ : ∃ core names', CoreNames.intern names = (core, names') :=
    ⟨_, _, rfl⟩
  rw [hc] at hle hfits
  obtain ⟨hd₀, hp₀⟩ := Hierarchy.initial_declared initial_wf hfits
  obtain ⟨hrooted, hsuper⟩ := Hierarchy.declare_initial initial_wf hfits names' source.classes
  obtain ⟨h₀, t₀, hi⟩ : ∃ h₀ t₀, Hierarchy.initial core .initial = (h₀, t₀) := ⟨_, _, rfl⟩
  rw [hi] at hd₀ hp₀ hrooted hsuper
  dsimp only at hrooted hsuper
  have hd := Hierarchy.Declared.declare (h := h₀) hd₀.wf names' source.classes
  have hes := Hierarchy.declare_errors (h := h₀) names' source.classes t₀
  obtain ⟨ces, h₁, t₁, hdecl⟩ : ∃ ces h₁ t₁, h₀.declare names' source.classes t₀ =
    ((ces, h₁), t₁) := ⟨_, _, _, rfl⟩
  rw [hdecl] at hd hes hrooted hsuper
  obtain ⟨es, ms, t, hrun, hwf, hle', hes', hr⟩ := MethodTable.Registered.addAll
    h₁ names' source.definitions hd.wf (fun _ h => h) .empty
  have run : register names source limits = (ces ++ es,
      { names := names', core, methods := ms, terms := source.arena.terms
        main := source.main.map (Arena.termAt source.arena.terms), limits },
      { types := t, hierarchy := h₁ }) := by
    unfold register
    simp only [hc, hi, hdecl, hrun]
  rw [run]
  exact {
    limits := rfl
    terms := rfl
    main := rfl
    names_le := hle
    interned := hc
    core := hfits
    types := hwf
    predefined := hp₀.declared hd
    rooted := hrooted
    superclass_eq := hsuper
    ivars := hd.ivars (hd₀.ivars fun c i hi => by cases hi)
    specs := rfl
    methods := hr
    errors := fun e he => (List.mem_append.1 he).elim (hes e) (hes' e) }

/-- The names that a registered source binds. -/
def boundNames (ctx : Inference.Context) : Finset Name :=
  (ctx.terms.toList.filterMap Term.bound).toFinset ∪
    (ctx.methods.methods.toList.flatMap fun m => m.definition.params.map (·.name)).toFinset

theorem mem_boundNames {ctx : Inference.Context} {n : Name} : n ∈ boundNames ctx ↔
    (∃ t ∈ ctx.terms, t.bound = some n) ∨
      ∃ m ∈ ctx.methods.methods, ∃ p ∈ m.definition.params, p.name = n := by
  simp [boundNames]

theorem every_known {ctx : Inference.Context} (hctx : ctx.terms = source.arena.terms)
    (e : ExprId) : (Arena.termAt ctx.terms e).Every fun u =>
      (∀ n ∈ u.bound, n ∈ boundNames ctx) ∧ ∀ k ∈ u.called, ctx.terms[u.id.index]? = some u := by
  refine Arena.every_termAt (fun t ht => ?_) (fun s => ⟨nofun, nofun⟩) e
  have hstands := source.arena.every_terms t (hctx ▸ ht)
  rw [← hctx] at hstands
  refine hstands.imp fun u hu => ?_
  rcases hu with ⟨s, rfl⟩ | hu
  · exact ⟨nofun, nofun⟩
  · exact ⟨fun n hn => mem_boundNames.2 (.inl ⟨u, Array.mem_of_getElem? hu, hn⟩), fun _ _ => hu⟩

variable {names source limits} {es : List TypeError} {ctx : Inference.Context}
  {σ : Inference.State}

/-- What does not change while a registered source is inferred. -/
def Prepared.world (hk : Prepared names source limits es ctx σ)
    (answer : SpecId → Infer TypeId) : World where
  ctx
  tree := σ.hierarchy.tree
  names := boundNames ctx
  callAt e := ctx.terms[e.index]?
  answer
  five_le := by
    rw [Hierarchy.size_tree]
    exact hk.predefined.five_le
  term_known d := every_known source hk.terms d
  main_known t ht := by
    rw [hk.main, ← hk.terms] at ht
    obtain ⟨e, -, rfl⟩ := List.mem_map.1 ht
    exact every_known source hk.terms e
  params_known m md p hm hp :=
    mem_boundNames.2 (.inr ⟨md, Array.mem_of_getElem? hm, p, hp, rfl⟩)

variable (hk : Prepared names source limits es ctx σ)
include hk

theorem Prepared.get?_specs (s : SpecId) : σ.specs.get? s = none := by
  rw [hk.specs]
  rfl

/-- Inference of a registered source starts in a state that is fine. -/
theorem Prepared.ok (answer : SpecId → Infer TypeId) : (Prepared.world hk answer).Ok σ := by
  refine ⟨hk.types, fun m md i a hm ha => ?_, rfl, fun c n a ha => ?_, fun s i hi => ?_,
    fun s i hi => ?_, fun s i p hi => ?_, fun s i hi => ?_, fun s i hi => ?_⟩
  · simp only [Method.declared, Option.join_eq_some_iff] at ha
    have hr := hk.methods.restrictions m md hm
    obtain ⟨hlt, hia⟩ := List.getElem?_eq_some_iff.1 ha
    have hlen := hr.length_eq
    have := hr.get (i := i) (by omega) hlt
    simp only [List.get_eq_getElem, hia] at this
    exact this.has
  · simp only [Hierarchy.ivarType, Hierarchy.ivars] at ha
    cases hc : σ.hierarchy.get? c with
    | none => simp [hc] at ha
    | some i => simp [hc, hk.ivars c i hc] at ha
  all_goals simp [hk.get?_specs] at hi

end

/-! ## Checking a source -/

/-- What checking gives, of the errors of registration and of what was inferred. -/
def CheckResult.of (es : List TypeError) (ctx : Inference.Context) (passes : Inference.Passes)
    (top : Inference.TopResult) (s : Inference.State) : CheckResult where
  program := {
    names := ctx.names, core := ctx.core, types := s.types, hierarchy := s.hierarchy
    methods := ctx.methods, specs := s.specs, terms := ctx.terms, main := ctx.main
    mainBody := top.body, mainType := top.type, passes := passes.count }
  errors := es ++ passes.report ctx

/-- Checking a registered source: passes until the state `σ₁`, and the final typing of the top level
until `σ₂`. What is then known holds whichever way visits are answered later on. -/
theorem check_eq {names : NameTable} {source : Source} {limits : Limits} {es : List TypeError}
    {ctx : Inference.Context} {σ : Inference.State} (hreg : register names source limits = (es, ctx, σ)) :
    ∃ (hk : Prepared names source limits es ctx σ) (passes : _) (top : _) (σ₁ : _) (σ₂ : _),
      Inference.runPasses ctx limits.passes {} σ = some (passes, σ₁) ∧
      Inference.inferTop ctx (World.frozen σ₁) = some (top, σ₂) ∧
      check names source limits = some (.of es ctx passes top (World.frozen σ₂)) ∧
      ∀ answer, ∃ U, (hk.world answer).Inferred σ passes top σ₁ σ₂ U := by
  have hk := register_prepared names source limits
  rw [hreg] at hk
  have safe (answer : SpecId → Infer TypeId) := World.infer_safe (hk.ok answer) hk.get?_specs
  obtain ⟨passes, top, σ₁, σ₂, -, hrun, htop, -⟩ := safe Infer.storedType
  have hrun : Inference.runPasses ctx ctx.limits.passes {} σ = some (passes, σ₁) := hrun
  have htop : Inference.inferTop ctx (World.frozen σ₁) = some (top, σ₂) := htop
  have hinfer : Inference.infer ctx σ = _ :=
    World.infer_eq (W := hk.world Infer.storedType) hrun htop
  refine ⟨hk, passes, top, σ₁, σ₂, hk.limits ▸ hrun, htop, ?_, fun answer => ?_⟩
  · unfold check
    simp only [hreg, hinfer]
    rfl
  · -- The runs are the same whichever the answers.
    obtain ⟨passes', top', σ₁', σ₂', U, hrun', htop', hi⟩ := safe answer
    obtain ⟨rfl, rfl⟩ := Prod.mk.inj (Option.some.inj (hrun.symm.trans hrun'))
    obtain ⟨rfl, rfl⟩ := Prod.mk.inj (Option.some.inj (htop.symm.trans htop'))
    exact ⟨U, hi⟩

end Multimethod
