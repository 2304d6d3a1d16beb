import Multimethod.Proofs.Machine.Checked
import Multimethod.Proofs.Pass.Orderly

/-!
# Parameters are bound alike

Where a call leaves out arguments, checking and running both evaluate the defaults of the parameters,
each in its own way. They agree unless a default returns early (`check_bindsAlike`): every parameter
is bound to a value of the type that the checker binds it to, which fits the restriction, and once
all are bound they fit still if no default assigns an earlier parameter (`BoundAlike.fits`). What a
default returns early is bound to the parameter when the program is run, but the checker takes the
parameter to have no value at all (`check_defaultReturns`).
-/

namespace Multimethod

open Inference TypeTable

/-- Binding the parameter leaves the local `n` as it is: the parameter has another name, and its
default does not assign `n`. -/
def Param.Spares (ctx : Context) (n : Name) (p : Param) : Prop :=
  p.name ≠ n ∧ ∀ d ∈ p.default, (ctx.term d).Every (·.assigns? ≠ some n)

instance (ctx : Context) (n : Name) : DecidablePred (Param.Spares ctx n) := fun p =>
  inferInstanceAs (Decidable (p.name ≠ n ∧ ∀ d ∈ p.default, (ctx.term d).Every (·.assigns? ≠ some n)))

/-- In a run of `p`, the activation of the specialization `s` has the locals `locals`, and binds the
parameters `rest` next. Those before them, `bound`, have values of the types that the checker binds
them to when it evaluates the specialization once more in the state `σ`, and each one that those after
it spare has a value that fits its restriction. -/
structure BoundAlike (ctx : Context) (σ : State) (p : Program) (s : SpecId)
    (locals : Map .name Value) (rest : List Param) (i : Specialization) (m : Method)
    (bound : List Param) (S : Scope) : Prop where
  spec : σ.specs.get? s = some i
  key : (p.specs.get? s).map (·.key) = some i.key
  method : ctx.methods.get? i.key.method = some m
  params : m.definition.params = bound ++ rest
  checker : Infer.bindParams ctx Infer.storedType m i.key 0 bound (σ, .opened σ.types i.key) =
    some (.ok (), σ, S)
  typed : ∀ q ∈ bound, ∃ a, (locals[q.name]?.getD .nil).type? p.types = some a ∧
    a ∈ p.types.members (S.locals[q.name]?.getD .nil)
  restricted : ∀ before q after, bound = before ++ q :: after → (∀ r ∈ after, r.Spares ctx q.name) →
    ∃ a, (locals[q.name]?.getD .nil).type? p.types = some a ∧
      ∀ r ∈ (m.restriction before.length i.key.receiver p.types).1,
        p.hierarchy.isSubtype p.types a r = true

/-- Once all parameters are bound, they all fit their restrictions if no two have the same name and no
default assigns an earlier one. -/
theorem BoundAlike.fits {ctx : Context} {σ : State} {p : Program} {s : SpecId}
    {locals : Map .name Value} {i : Specialization} {m : Method} {bound : List Param} {S : Scope}
    (h : BoundAlike ctx σ p s locals [] i m bound S)
    (hspare : m.definition.params.Pairwise fun q r => r.Spares ctx q.name) {k : Nat} {q : Param}
    (hq : m.definition.params[k]? = some q) :
    ∃ a, (locals[q.name]?.getD .nil).type? p.types = some a ∧
      ∀ r ∈ (m.restriction k i.key.receiver p.types).1, p.hierarchy.isSubtype p.types a r = true := by
  rw [h.params, List.append_nil] at hspare hq
  obtain ⟨hk, rfl⟩ := List.getElem?_eq_some_iff.1 hq
  have hsplit : bound = bound.take k ++ bound[k] :: bound.drop (k + 1) := by
    rw [← List.drop_eq_getElem_cons hk, List.take_append_drop]
  have hafter := hspare.drop (i := k)
  rw [List.drop_eq_getElem_cons hk, List.pairwise_cons] at hafter
  have hfits := h.restricted _ _ _ hsplit hafter.1
  rwa [List.length_take, Nat.min_eq_left hk.le] at hfits

namespace World

variable {W : World} {τ : State} {U S S' : Scope} {m : Method} {key : SpecKey}

/-- What was bound is bound once more where callees answer with what is stored. -/
theorem Binds.again {i : Nat} {ps : List Param} (h : W.Binds τ U m key i ps S S')
    (hr : W.Recalls τ) :
    Infer.bindParams W.ctx W.answer m key i ps (τ, S) = some (.ok (), τ, S') := by
  induction ps generalizing i S with
  | nil =>
    cases h
    rfl
  | cons p ps ih =>
    obtain ⟨a, S₁, -, hagain, hps⟩ := h
    have hrest := ih hps
    rw [bindParams_cons]
    show (Infer.bindParams W.ctx W.answer m key i [p] (τ, S) >>= fun r => (ExceptT.bindCont
      (fun _ => Infer.bindParams W.ctx W.answer m key (i + 1) ps) r.1 :
        ScopeRun (Except TypeError Unit)) r.2) = _
    rw [hagain hr]
    exact hrest

/-- A local that is bound is left alone by the parameters that spare it. -/
theorem Binds.leaves {n : Name} {i : Nat} {ps : List Param} (h : W.Binds τ U m key i ps S S')
    (hps : ∀ p ∈ ps, p.Spares W.ctx n) (hn : S.locals[n]? ≠ none) :
    S'.locals[n]? ≠ none ∧ Locals.Leaves τ.types n S.locals S'.locals := by
  induction ps generalizing i S with
  | nil =>
    cases h
    exact ⟨hn, .refl⟩
  | cons p ps ih =>
    obtain ⟨⟨hname, hdefault⟩, hps⟩ := List.forall_mem_cons.1 hps
    obtain ⟨a, S₁, hstep, -, hrest⟩ := h
    have hvalue : S₁.locals[n]? ≠ none ∧ Locals.Leaves τ.types n S.locals S₁.locals := by
      split at hstep
      · rw [hstep.2]
        exact ⟨hn, .refl⟩
      · rw [hstep.2]
        exact ⟨hn, .refl⟩
      · rename_i d _ hd
        exact ⟨hstep.1.grows.bound hn, hstep.1.leaves (P := True)
          (Term.Every.imp (fun _ hu => ⟨hu, fun _ => trivial⟩) (hdefault d hd)) fun _ => hn⟩
    have hother : (S₁.bind p.name a).locals[n]? = S₁.locals[n]? :=
      Map.getElem?_insert_ne hname.symm
    obtain ⟨hbound, hleaves⟩ := ih hrest hps (hother ▸ hvalue.1)
    refine ⟨hbound, hvalue.2.trans (.trans (fun c hc => ?_) hleaves)⟩
    exact ⟨c, hother ▸ hc, fun _ hm => hm⟩

end World

namespace Machine.Basis

variable {B : Basis} {cs : List ClassId} {U S S' : Scope} {rest : List Param} {args : List Value}
  {code : Term} {s : SpecId} {i : Specialization} {m : Method}

/-- A parameter that is spared by those bound after it has a type that has no values but those of a
type that fits its restriction. -/
theorem Bound.restricted {before after : List Param} {q : Param}
    (h : B.Bound cs U S rest args code s i m (before ++ q :: after) S')
    (hplaced : MethodTable.misplacedParam? m.definition = none)
    (hafter : ∀ r ∈ after, r.Spares B.W.ctx q.name) :
    ∃ a b, S.locals[q.name]? = some b ∧ (∀ k ∈ B.τ.types.members b, k ∈ B.τ.types.members a) ∧
      ∀ u : TypeTable, u.WF → B.τ.types ≤ u →
        ∀ r ∈ (m.restriction before.length i.key.receiver u).1, B.W.tree.isSubtype u a r = true := by
  have hkey := B.ok.keys s i h.spec
  obtain ⟨S₀, -, a, S₁, hstep, -, hbinds⟩ := World.binds_append.1 h.done
  have hself : (S₁.bind q.name a).locals[q.name]? = some a := by simp [Scope.bind]
  obtain ⟨hbound, hleaves⟩ := hbinds.leaves hafter (by simp [hself])
  obtain ⟨b, hb⟩ := Option.ne_none_iff_exists'.1 hbound
  obtain ⟨a', ha', hba⟩ := hleaves b hb
  cases hself.symm.trans ha'
  refine ⟨a, b, hb, hba, fun u hu hle r hr => ?_⟩
  rw [Nat.zero_add] at hstep
  cases hget : i.key.args[before.length]? with
  | some b =>
    -- The argument was supplied, and the method has been found to take it.
    rw [hget] at hstep
    obtain ⟨rfl, -⟩ := hstep
    exact h.picked.isSubtype B.ok hkey h.checked.method hget hu hle r hr
  | none =>
    have hq : q ∈ m.definition.params.drop i.key.args.length := by
      rw [h.params, List.append_assoc, List.drop_append_of_le_length
        (List.getElem?_eq_none_iff.1 hget)]
      simp
    have hdefault : q.default ≠ none := by
      obtain ⟨md, hmd, harity⟩ := hkey.method
      cases hmd.symm.trans h.checked.method
      exact MethodTable.default_of_acceptsArity hplaced harity q hq
    rw [hget] at hstep
    cases hd : q.default with
    | none => exact absurd hd hdefault
    | some d =>
      rw [hd] at hstep
      exact hstep.2 u hu hle r hr

/-- In a sound configuration, parameters are bound alike. -/
theorem boundAlike {c : Config} (h : B.Sound c) (hanswer : B.W.answer = Infer.storedType)
    (htree : B.program.hierarchy.tree = B.W.tree)
    (hplaced : ∀ m md, B.W.ctx.methods.get? m = some md →
      MethodTable.misplacedParam? md.definition = none) (hbind : c.control = .bind rest args code) :
    ∃ s i m bound S, c.activation.unit = some s ∧
      BoundAlike B.W.ctx B.τ B.program s c.activation.locals rest i m bound S := by
  obtain ⟨cs, U, R, -, hd⟩ := h
  simp only [Doing, hbind] at hd
  obtain ⟨-, S, hfits, s, i, m, bound, S', hunit, hb⟩ := hd
  have hle : B.τ.types ≤ B.program.types := B.types_eq ▸ B.grows.types
  refine ⟨s, i, m, bound, S, hunit, hb.spec, ?_, hb.checked.method, hb.params, ?_, ?_, ?_⟩
  · obtain ⟨j, hj, hkey, -⟩ := B.grows.specs s i hb.spec
    rw [B.specs_eq, hj, Option.map_some, hkey]
  · rw [← hanswer]
    exact hb.done.again (World.recalls_storedType hanswer B.τ)
  · intro q _
    obtain ⟨-, a, ha, htype⟩ := hfits q.name
    exact ⟨a, Value.type?_mono htype hle, by rwa [(has_of_mem ha).members_eq hle]⟩
  · rintro before q after rfl hafter
    obtain ⟨b, b', hq, hbb, hfit⟩ := hb.restricted (hplaced _ m hb.checked.method) hafter
    obtain ⟨-, a, ha, htype⟩ := hfits q.name
    rw [hq, Option.getD_some] at ha
    have hab := hbb a ha
    refine ⟨a, Value.type?_mono htype hle, fun r hr => ?_⟩
    -- The exact type of the value is a member of the type that fits the restriction.
    have hwf : B.program.types.WF := B.types_eq ▸ B.finalOk.types
    rw [← Hierarchy.isSubtype_tree, htree]
    refine Hierarchy.isSubtype_of_subset _ (fun k hk => ?_) (hfit _ hwf hle r hr)
    obtain ⟨hhas, hmember⟩ := B.ok.types.isMember_of_mem (has_of_mem hab) hab
    rw [(has_of_mem hab).members_eq hle]
    rw [members_of_isMember (by rwa [hhas.shape_eq hle]), List.mem_singleton] at hk
    rwa [hk]

end Machine.Basis

/-- A term that does not use the class named `nil` as an object, nor applies a primitive operation to
a wrong number of operands. -/
def Term.Plain (nil : Name) : Term → Prop
  | .const _ n => n ≠ nil
  | .primitive _ op ts => ts.length = op.arity
  | _ => True

instance (nil : Name) : DecidablePred (Term.Plain nil)
  | .const _ n => inferInstanceAs (Decidable (n ≠ nil))
  | .primitive _ op ts => inferInstanceAs (Decidable (ts.length = op.arity))
  | .nil _ | .bool _ _ | .int _ _ | .float _ _ | .self _ | .var _ _ | .assign _ _ _ | .ivar _ _
  | .setIvar _ _ _ | .call _ _ _ _ | .send _ _ _ | .ifThen _ _ _ | .ifElse _ _ _ _ | .loop _ _ _
  | .andAlso _ _ _ | .orElse _ _ _ | .ret _ | .retValue _ _ | .block _ _ => .isTrue trivial

/-- What a run relies on where all terms are plain and no default returns early. -/
def Machine.Converged.basis (C : Converged) {nil : Name} (hnil : C.W.tree.find? nil = some .nil)
    (hmain : ∀ t ∈ C.W.ctx.main, ∃ e, t = C.W.ctx.term e)
    (hplain : ∀ e, (C.W.ctx.term e).Every (·.Plain nil))
    (hdefaults : ∀ m md, C.W.ctx.methods.get? m = some md → ∀ q ∈ md.definition.params,
      ∀ d ∈ q.default, (C.W.ctx.term d).Every fun u => ¬ u.IsReturn) : Basis where
  toConverged := C
  Occurs c := c ≠ .nil
  Allows u := C.W.Known u ∧ u.Plain nil
  Operands op as := as.length = op.arity
  object := nofun
  nil h := h rfl
  known _ hu := hu.1
  const site n c hu hc := by
    rintro rfl
    exact hu.2 (Hierarchy.find?_inj hc hnil)
  arity _ _ h := h
  operands site op ts hu as has := has.trans hu.2
  mainAllowed t ht := by
    obtain ⟨e, rfl⟩ := hmain t ht
    exact (C.W.main_known _ ht).and (hplain e)
  defaults m md hm q hq d hd := ((C.W.term_known d).and (hplain d)).and (hdefaults m md hm q hq d hd)
  bodies s i m U S hs hc hp := .inl ((C.W.term_known _).and (hplain _))

/-- If a source is checked without errors, no default returns early, the class of `nil` is not used
as an object and primitive operations have the right number of operands, then whenever a run binds
parameters it binds them as the checker does. -/
theorem check_bindsAlike {names : NameTable} {source : Source} {limits : Limits} {r : CheckResult}
    (h : check names source limits = some r) (he : r.errors = [])
    (hdefaults : ∀ d ∈ source.definitions, ∀ q ∈ d.params, ∀ e ∈ q.default,
      (Arena.termAt source.arena.terms e).Every fun u => ¬ u.IsReturn)
    (hplain : ∀ t ∈ source.arena.terms, t.Plain r.program.core.nil) :
    ∃ passes σ, runPasses (register names source limits).2.1 limits.passes {}
        (register names source limits).2.2 = some (passes, σ) ∧
      ∀ limit n params args code, ∀ c : Machine.Config,
        c = (Machine.step r.program limit)^[n] (Machine.start r.program) →
        c.control = .bind params args code → ∃ s i m bound S, c.activation.unit = some s ∧
          BoundAlike (register names source limits).2.1 σ r.program s c.activation.locals params
            i m bound S := by
  rcases hreg : register names source limits with ⟨es, ctx, σ₀⟩
  obtain ⟨hk, passes, top, σ, σ₂, hrun, -, hcheck, hinferred⟩ := check_eq hreg
  obtain ⟨U, hi⟩ := hinferred Infer.storedType
  obtain rfl := Option.some.inj (h.symm.trans hcheck)
  obtain ⟨hch, last, σ', U', hlast, hnone, hclosed, hf⟩ := last_of_errors hi he
  have hterm (e : ExprId) : ctx.term e = Arena.termAt source.arena.terms e := by
    rw [Context.term, hk.terms]
  have hsound (limit n : Nat) := ((Machine.Converged.of hi hclosed hf hnone hch).basis
    hk.predefined.nil
    (fun t ht => by
      obtain ⟨e, -, rfl⟩ := List.mem_map.1 (hk.main ▸ ht : t ∈ source.main.map _)
      exact ⟨e, (hterm e).symm⟩)
    (fun e => (hterm e).symm ▸ Arena.every_of_terms hplain (fun _ => trivial) e)
    (fun m md hm q hq d hd => (hterm d).symm ▸
      hdefaults _ (hk.methods.definition m md hm) q hq d hd)).run_sound limit n
  refine ⟨passes, σ, hrun, fun limit n params args code c hc hbind => ?_⟩
  exact Machine.Basis.boundAlike (hc ▸ hsound limit n) rfl hi.ok.tree hk.methods.placed hbind

/-- The top level leaves out both arguments of a function; the second default is the first
parameter. -/
def defaulted : Builder := ((do
  let x ← Build.param "x" (some (.named (← Build.name "Int"))) (some (← Build.int 5))
  let y ← Build.param "y" (some (.named (← Build.name "Int"))) (some (← Build.var "x"))
  Build.function "f" [x, y] (← Build.var "y")
  Build.stmt (← Build.call none "f" []) : Build Unit).run {}).2

/-- No arguments are left to be bound. -/
def Machine.Control.bindsDefaults : Machine.Control → Bool
  | .bind [] _ _ => true
  | _ => false

theorem check_bindsAlike_defaulted : ∃ r passes σ c args code s i m bound S,
    check defaulted.names defaulted.source {} = some r ∧ r.errors = [] ∧
    runPasses (register defaulted.names defaulted.source {}).2.1 ({} : Limits).passes {}
      (register defaulted.names defaulted.source {}).2.2 = some (passes, σ) ∧
    c = (Machine.step r.program 10)^[9] (Machine.start r.program) ∧
    c.control = .bind [] args code ∧ c.activation.unit = some s ∧
    BoundAlike (register defaulted.names defaulted.source {}).2.1 σ r.program s
      c.activation.locals [] i m bound S ∧ bound.length = 2 ∧
    ∀ k q, bound[k]? = some q → ∃ a,
      (c.activation.locals[q.name]?.getD .nil).type? r.program.types = some a ∧
      ∀ t ∈ (m.restriction k i.key.receiver r.program.types).1,
        r.program.hierarchy.isSubtype r.program.types a t = true := by
  obtain ⟨r, hr, he, hplain, hbind⟩ : ∃ r ∈ check defaulted.names defaulted.source {},
      r.errors = [] ∧ (∀ t ∈ defaulted.source.arena.terms, t.Plain r.program.core.nil) ∧
      ((Machine.step r.program 10)^[9] (Machine.start r.program)).control.bindsDefaults = true := by
    decide +kernel
  obtain ⟨passes, σ, hrun, hall⟩ := check_bindsAlike hr he (by decide +kernel) hplain
  -- `f` is the only method, and the second default only reads the first parameter.
  have hmethods : ∀ m ∈ (register defaulted.names defaulted.source {}).2.1.methods.methods,
      m.definition.params.length = 2 ∧ m.definition.params.Pairwise fun q p =>
        p.Spares (register defaulted.names defaulted.source {}).2.1 q.name := by
    decide +kernel
  unfold Machine.Control.bindsDefaults at hbind
  split at hbind
  · rename_i args code hc
    obtain ⟨s, i, m, bound, S, hunit, hb⟩ := hall 10 9 [] args code _ rfl hc
    obtain ⟨hlength, hspare⟩ := hmethods m (Array.mem_of_getElem? hb.method)
    have hparams : m.definition.params = bound := hb.params.trans (List.append_nil bound)
    exact ⟨r, passes, σ, _, args, code, s, i, m, bound, S, hr, he, hrun, rfl, hc, hunit, hb,
      hparams ▸ hlength, fun k q hq => hb.fits hspare (hparams ▸ hq)⟩
  · cases hbind

/-- The default of a parameter returns early. -/
def defaultReturns : Builder := ((do
  let x ← Build.param "x" none (some (← Build.ret (some (← Build.int 5))))
  Build.function "f" [x] (← Build.var "x")
  Build.stmt (← Build.call none "f" []) : Build Unit).run {}).2

/-- A value that a default returns early is not of the type that the checker finds for the
parameter. -/
theorem check_defaultReturns : ∃ r ∈ check defaultReturns.names defaultReturns.source {},
    r.errors = [] ∧
    ((Machine.step r.program 10)^[9] (Machine.start r.program)).activation.unit = some ⟨0⟩ ∧
    ((Machine.step r.program 10)^[9] (Machine.start r.program)).activation.locals.toList.map
      (fun l => l.2.type? r.program.types) = [some .int] ∧
    (r.program.specs.get? ⟨0⟩).map (·.body.paramTypes) = some [.never] ∧
    .int ∉ r.program.types.members .never := by decide +kernel

end Multimethod
