import Multimethod.Proofs.Order.Register

/-!
# Definitions in any order

A program refers to methods and types by handles, which follow the order in which they first came
in. Its outline (`Program.outline`) gives types and classes by their texts and methods by their
definitions. If definitions are reordered and those of each name keep their order, then checking
gives the same outline, the same errors of inference and, in another order, the same errors of
registration (`check_reordered`).
-/

namespace Multimethod

open Inference TypeTable

/-! ## Outlines -/

/-- Where a row of a dispatch table leads, classes as texts. -/
inductive CalleeOutline where
  | specialization (s : SpecId)
  | allocate (cls : String)
  | new (cls : String) (initializer : Option SpecId)
deriving DecidableEq, Repr

/-- A row of a dispatch table, types and classes as texts. -/
structure RowOutline where
  receiver : Option String
  args : List String
  target : CalleeOutline
deriving DecidableEq, Repr

/-- What a body was found to do, types and classes as texts. -/
structure BodyOutline where
  exprTypes : List (ExprId × String)
  dispatch : List (ExprId × List RowOutline)
  paramTypes : List String
deriving DecidableEq, Repr

/-- What is known of a specialization, types and classes as texts. -/
structure SpecializationOutline where
  /-- The definition of the method that is specialized. -/
  definition : Option Definition
  receiver : Option String
  args : List String
  returnType : String
  body : BodyOutline

/-- A checked source, without any handles of types, classes and methods. -/
structure Outline where
  passes : Nat
  mainType : String
  main : BodyOutline
  /-- The specializations in the order of creation. -/
  specializations : List SpecializationOutline

namespace Program

variable (p : Program)

def className (c : ClassId) : String := p.names.text (p.hierarchy.name c)

def calleeOutline : Callee → CalleeOutline
  | .specialization s => .specialization s
  | .allocate c => .allocate (p.className c)
  | .new c initializer => .new (p.className c) initializer

def rowOutline (row : Row) : RowOutline where
  receiver := row.receiver.map p.typeText
  args := row.args.map p.typeText
  target := p.calleeOutline row.target

def bodyOutline (b : Body) : BodyOutline where
  exprTypes := b.exprTypes.toList.map fun (e, a) => (e, p.typeText a)
  dispatch := b.dispatch.toList.map fun (e, t) => (e, t.toList.map p.rowOutline)
  paramTypes := b.paramTypes.map p.typeText

def specializationOutline (i : Specialization) : SpecializationOutline where
  definition := (p.methods.get? i.key.method).map (·.definition)
  receiver := i.key.receiver.map p.typeText
  args := i.key.args.map p.typeText
  returnType := p.typeText i.returnType
  body := p.bodyOutline i.body

def outline : Outline where
  passes := p.passes
  mainType := p.typeText p.mainType
  main := p.bodyOutline p.mainBody
  specializations := p.specs.ids.filterMap fun s => (p.specs.get? s).map p.specializationOutline

end Program

/-! ## Outlines of what is the same -/

namespace Ground

variable {G : Ground} {t u : TypeTable} {p p' : Program}

/-- The type of a value is in the common table. -/
theorem Twins.atom (H : G.Twins t u) {a : TypeId} (hv : (t.shape a).IsValue G.classes) :
    G.Atom a := by
  obtain ⟨b, hb, hshape⟩ := G.described _ hv
  have hatom : G.Atom b := atom_of_isValue (hshape ▸ hv)
  obtain rfl : a = b := (has_of_isMember hv.isMember).shape_inj (hb.mono H.left_le)
    (hshape.symm.trans (H.shape_left hatom).symm)
  exact hatom

variable (G) in
/-- The programs have the same texts for types that are the same, and for classes. -/
structure SameTexts (t u : TypeTable) (p p' : Program) : Prop where
  twins : G.Twins t u
  type : ∀ {a b}, G.Same t u a b → p'.typeText b = p.typeText a
  className : p'.className = p.className

namespace SameTexts

variable (T : G.SameTexts t u p p')
include T

theorem atom {a : TypeId} (ha : G.Atom a) : p'.typeText a = p.typeText a :=
  T.type (.atom T.twins ha)

theorem types {as bs : List TypeId} (h : List.Forall₂ (G.Same t u) as bs) :
    bs.map p'.typeText = as.map p.typeText := by
  rw [← List.forall₂_eq_eq_eq]
  exact List.rel_map (fun _ _ h => (T.type h)) h.flip

theorem receiver {a : Option TypeId} (ha : ∀ b ∈ a, G.Atom b) :
    a.map p'.typeText = a.map p.typeText :=
  Option.map_congr fun b hb => T.atom (ha b hb)

theorem args {as : List TypeId} (ha : ∀ a ∈ as, G.Atom a) :
    as.map p'.typeText = as.map p.typeText :=
  List.map_congr_left fun a h => T.atom (ha a h)

theorem rowOutline_eq {row : Row} (hr : ∀ a ∈ row.receiver, G.Atom a)
    (ha : ∀ a ∈ row.args, G.Atom a) : p'.rowOutline row = p.rowOutline row := by
  have htarget : p'.calleeOutline row.target = p.calleeOutline row.target := by
    cases row.target <;> simp only [Program.calleeOutline, T.className]
  simp only [Program.rowOutline, T.receiver hr, T.args ha, htarget]

theorem bodyOutline_eq {b b' : Body} (hb : G.SameBody t u b b')
    (hrows : ∀ e, ∀ row ∈ (b.dispatchAt e).toList,
      (∀ a ∈ row.receiver, G.Atom a) ∧ ∀ a ∈ row.args, G.Atom a) :
    p'.bodyOutline b' = p.bodyOutline b := by
  have hexprs : b'.exprTypes.toList.map (fun (e, a) => (e, p'.typeText a)) =
      b.exprTypes.toList.map fun (e, a) => (e, p.typeText a) := by
    rw [← List.forall₂_eq_eq_eq]
    refine List.rel_map (fun x y h => ?_) hb.exprTypes.toList.flip
    exact Prod.ext h.1.symm (T.type h.2)
  have hdispatch : b.dispatch.toList.map (fun (e, t) => (e, t.toList.map p'.rowOutline)) =
      b.dispatch.toList.map fun (e, t) => (e, t.toList.map p.rowOutline) := by
    refine List.map_congr_left fun (e, table) he => Prod.ext rfl ?_
    have hat : b.dispatchAt e = table := by
      rw [Body.dispatchAt, Std.ExtTreeMap.mem_toList_iff_getElem?_eq_some.1 he]
      rfl
    exact List.map_congr_left fun row hrow => by
      obtain ⟨hr, ha⟩ := hrows e row (hat ▸ hrow)
      exact T.rowOutline_eq hr ha
  simp only [Program.bodyOutline, hexprs, hb.dispatch, hdispatch, T.types hb.paramTypes]

end SameTexts

end Ground

namespace Mirror

variable {M : Mirror} {σ τ : State} {es es' : List TypeError} {passes passes' : Passes}
  {top top' : TopResult}

/-- Programs that are made of states that have found the same have the same outline. -/
theorem Pair.outline_eq (h : M.Pair σ τ) (hpasses : SamePasses passes passes')
    (htop : M.SameTop σ.types τ.types top top')
    (hmain : ∀ e, ∀ row ∈ (top.body.dispatchAt e).toList,
      (∀ a ∈ row.receiver, M.ground.Atom a) ∧ ∀ a ∈ row.args, M.ground.Atom a)
    (hrows : ∀ s i, σ.specs.get? s = some i → ∀ e, ∀ row ∈ (i.body.dispatchAt e).toList,
      (∀ a ∈ row.receiver, M.ground.Atom a) ∧ ∀ a ∈ row.args, M.ground.Atom a) :
    (CheckResult.of es' M.other passes' top' τ).program.outline =
      (CheckResult.of es M.ctx passes top σ).program.outline := by
  set p := (CheckResult.of es M.ctx passes top σ).program with hp
  set p' := (CheckResult.of es' M.other passes' top' τ).program with hp'
  have T : M.ground.SameTexts σ.types τ.types p p' := by
    refine ⟨h.twins, fun hab => (h.typeText_eq hab).symm, funext fun c => ?_⟩
    show M.other.names.text (τ.hierarchy.name c) = M.ctx.names.text (σ.hierarchy.name c)
    rw [← Hierarchy.name_tree τ.hierarchy, h.right_tree, ← h.left_tree, Hierarchy.name_tree]
    rfl
  have hspecs : ∀ s, (p'.specs.get? s).map p'.specializationOutline =
      (p.specs.get? s).map p.specializationOutline := by
    intro s
    have hs := h.specs s
    have hrow := hrows s
    show (τ.specs.get? s).map p'.specializationOutline =
      (σ.specs.get? s).map p.specializationOutline
    generalize σ.specs.get? s = i, τ.specs.get? s = i' at hs hrow ⊢
    cases hs with
    | none => rfl
    | @some i i' hi =>
      obtain ⟨n, hm⟩ := hi.key.method
      obtain ⟨md, md', hmd, hmd', -, hsame⟩ := h.paired.same hm
      have hget : p.methods.get? i.key.method = some md := hmd
      have hget' : p'.methods.get? i'.key.method = some md' := hmd'
      have hbody := T.bodyOutline_eq hi.body (hrow i rfl)
      simp only [Option.map_some, Program.specializationOutline, hget, hget', hsame.definition,
        hi.key.receiver, hi.key.args, T.receiver hi.key.receiver_atom, T.args hi.key.args_atom,
        T.type hi.returnType, hbody]
  have hids : p'.specs.ids = p.specs.ids := by
    show (List.range τ.specs.size).map _ = (List.range σ.specs.size).map _
    rw [h.size_eq]
  have hmainType : p'.typeText p'.mainType = p.typeText p.mainType := T.type htop.type
  have hbody : p'.bodyOutline p'.mainBody = p.bodyOutline p.mainBody :=
    T.bodyOutline_eq htop.body hmain
  have hcount : p'.passes = p.passes := hpasses.count
  simp only [Program.outline, hcount, hmainType, hbody, hids, hspecs]

end Mirror

/-! ## Checking -/

/-- Definitions may come in any order, if those of each name keep theirs: checking gives the same
errors of registration in another order, the same errors of inference in the same order, and the
same outline. -/
theorem check_reordered (names : NameTable) (source : Source) (limits : Limits)
    {ds : List Definition} (hds : Reordered source.definitions ds) : ∃ r r' errors,
    check names source limits = some r ∧
    check names { source with definitions := ds } limits = some r' ∧
    r.errors = (register names source limits).1 ++ errors ∧
    r'.errors = (register names { source with definitions := ds } limits).1 ++ errors ∧
    (register names source limits).1.Perm
      (register names { source with definitions := ds } limits).1 ∧
    r'.program.outline = r.program.outline := by
  obtain ⟨M, hctx, hctx', h, herrors⟩ := register_reordered names source limits hds
  rcases hreg : register names source limits with ⟨es, ctx, σ⟩
  rcases hreg' : register names { source with definitions := ds } limits with ⟨es', ctx', τ⟩
  rw [hreg, hreg'] at h herrors
  rw [hreg] at hctx
  rw [hreg'] at hctx'
  dsimp only at hctx hctx' h herrors
  subst hctx hctx'
  obtain ⟨hk, passes, top, σ₁, σ₂, hrun, htop, hcheck, hinferred⟩ := check_eq hreg
  obtain ⟨-, passes', top', τ₁, τ₂, hrun', htop', hcheck', -⟩ := check_eq hreg'
  obtain ⟨U, hi⟩ := hinferred Infer.storedType
  obtain ⟨h₁, hpasses⟩ := Mirror.runPasses_agree limits.passes h ⟨rfl, rfl, rfl⟩ hrun hrun'
  obtain ⟨h₂, hsame⟩ := Mirror.inferTop_agree h₁.frozen htop htop'
  have hreport : passes'.report M.other = passes.report M.ctx := by
    simp only [Passes.report, hpasses.converged, hpasses.errors]
    rfl
  refine ⟨_, _, passes.report M.ctx, hcheck, hcheck', rfl, by rw [← hreport]; rfl, herrors, ?_⟩
  have hclasses : (hk.world Infer.storedType).classes = M.ground.classes := by
    rw [← M.size_tree, ← h.left_tree]
    rfl
  -- The rows of all bodies are for values, so their types are in both tables.
  have atoms {self : Option TypeId} {b : Body}
      (hb : (hk.world Infer.storedType).RowsOk (World.frozen σ₂) self b) (e : ExprId) :
      ∀ row ∈ (b.dispatchAt e).toList,
        (∀ a ∈ row.receiver, M.ground.Atom a) ∧ ∀ a ∈ row.args, M.ground.Atom a := by
    intro row hrow
    obtain ⟨_, _, -, -, hok, -⟩ := hb e _ _ _ (DispatchTable.mem_toList.1 hrow)
    exact ⟨fun a ha => h₂.frozen.twins.atom (hclasses ▸ hok.receiver a ha),
      fun a ha => h₂.frozen.twins.atom (hclasses ▸ hok.args a ha)⟩
  exact h₂.frozen.outline_eq hpasses hsame (atoms hi.rows) fun s i hs => atoms (hi.ok.rows s i hs)

/-- A function that calls one defined after it. -/
def forwardCall : Builder := ((do
  Build.function "foo" [] (← Build.call none "bar" [])
  Build.function "bar" [] (← Build.int 1)
  Build.stmt (← Build.call none "foo" []) : Build Unit).run {}).2

theorem check_reordered_forwardCall : ∃ r r',
    Reordered forwardCall.source.definitions forwardCall.source.definitions.reverse ∧
    forwardCall.source.definitions.reverse.map (·.name) ≠
      forwardCall.source.definitions.map (·.name) ∧
    check forwardCall.names forwardCall.source {} = some r ∧
    check forwardCall.names
      { forwardCall.source with definitions := forwardCall.source.definitions.reverse } {} =
        some r' ∧
    r.errors = [] ∧ r'.errors = [] ∧ r.program.outline.mainType = "Int" ∧
    r'.program.outline = r.program.outline := by
  have hds : Reordered forwardCall.source.definitions forwardCall.source.definitions.reverse :=
    .of_nodup (by decide +kernel) (List.reverse_perm _).symm
  obtain ⟨r, r', errors, hr, hr', he, he', hperm, houtline⟩ :=
    check_reordered forwardCall.names forwardCall.source {} hds
  obtain ⟨r₀, hr₀, hnone, htype⟩ : ∃ r ∈ check forwardCall.names forwardCall.source {},
      r.errors = [] ∧ r.program.outline.mainType = "Int" := by decide +kernel
  cases hr.symm.trans hr₀
  obtain ⟨hregistered, hinferred⟩ := List.append_eq_nil_iff.1 (he.symm.trans hnone)
  rw [hregistered, List.nil_perm] at hperm
  rw [hperm, hinferred] at he'
  exact ⟨r, r', hds, by decide +kernel, hr, hr', hnone, he', htype, houtline⟩

end Multimethod
