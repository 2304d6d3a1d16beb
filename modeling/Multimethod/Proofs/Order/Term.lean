import Multimethod.Proofs.Inference.Term
import Multimethod.Proofs.Order.Call

/-!
# Terms of two inferences

Two inferences that type a term from states that have found the same, and with locals of the same
types, give it the same type or report the same error, and record the same
(`Mirror.inferTerm_agree`).
-/

namespace Multimethod.Mirror

open Inference TypeTable Ground InferIn

variable {M : Mirror} {α β : Type} {R : TypeTable → TypeTable → α → β → Prop}
  {p q : State × Scope} {a b a' b' : TypeId}

/-! ## Scopes -/

theorem scope_agree {f : Scope → InferIn α} {g : Scope → InferIn β}
    (h : M.scopes.Agree p q (f p.2) (g q.2) R) :
    M.scopes.Agree p q (do f (← scope)) (do g (← scope)) R := h

theorem locals_agree {f : Locals → InferIn α} {g : Locals → InferIn β}
    (h : M.scopes.Agree p q (f p.2.locals) (g q.2.locals) R) :
    M.scopes.Agree p q (do f (← locals)) (do g (← locals)) R := h

theorem local?_agree {n : Name} {f : Option TypeId → InferIn α} {g : Option TypeId → InferIn β}
    (h : M.scopes.Agree p q (f p.2.locals[n]?) (g q.2.locals[n]?) R) :
    M.scopes.Agree p q (do f (← local? n)) (do g (← local? n)) R := h

section
variable (h : M.scopes.pair p q)
include h

theorem modifyScope_agree {f g : Scope → Scope}
    (hs : M.ground.SameScope p.1.types q.1.types (f p.2) (g q.2)) :
    M.scopes.Agree p q (modifyScope f) (modifyScope g) fun _ _ _ _ => True :=
  .modified ⟨⟨h.1, hs⟩, le_refl _, le_refl _⟩

theorem setLocals_agree {L L' : Locals} (hL : M.ground.SameMap p.1.types q.1.types L L') :
    M.scopes.Agree p q (setLocals L) (setLocals L') fun _ _ _ _ => True :=
  modifyScope_agree h { h.2 with locals := hL }

theorem setLocal_agree (n : Name) (hab : M.ground.Same p.1.types q.1.types a b) :
    M.scopes.Agree p q (setLocal n a) (setLocal n b) fun _ _ _ _ => True :=
  modifyScope_agree h { h.2 with locals := h.2.locals.insert n hab }

theorem tables_agree {x : StateM TypeTable α} {y : StateM TypeTable β}
    (hxy : M.ground.Alike p.1.types q.1.types x y R) :
    M.scopes.Agree p q (InferIn.onTypes x) (InferIn.onTypes y) R :=
  lift_agree h.2 (onTypes_agree h.1 hxy)

theorem join_agree (ha : M.ground.Same p.1.types q.1.types a b)
    (hb : M.ground.Same p.1.types q.1.types a' b') :
    M.scopes.Agree p q (InferIn.union a a') (InferIn.union b b') M.ground.Same :=
  tables_agree h (union_alike h.1.twins ha hb)

theorem never_same : M.ground.Same p.1.types q.1.types .never .never := .never h.1.twins

theorem nil_same : M.ground.Same p.1.types q.1.types .nil .nil := .nil h.1.twins

/-! ## Locals -/

theorem joinLocals_agree {L L' K K' : Locals} (hL : M.ground.SameMap p.1.types q.1.types L L')
    (hK : M.ground.SameMap p.1.types q.1.types K K') (dead dead' : Bool) :
    M.scopes.Agree p q (joinLocals L dead K dead') (joinLocals L' dead K' dead')
      M.ground.SameMap := by
  have join : M.scopes.Agree p q
      ((Handle.sorted (L.keys ++ K.keys)).foldlM (fun (m : Locals) n => do
        let t ← InferIn.union (L[n]?.getD (if dead then .never else .nil))
          (K[n]?.getD (if dead then .never else .nil))
        return m.insert n t) ∅)
      ((Handle.sorted (L'.keys ++ K'.keys)).foldlM (fun (m : Locals) n => do
        let t ← InferIn.union (L'[n]?.getD (if dead then .never else .nil))
          (K'[n]?.getD (if dead then .never else .nil))
        return m.insert n t) ∅) M.ground.SameMap := by
    rw [hL.keys_eq, hK.keys_eq]
    refine .foldlM (A := fun _ _ n n' => n' = n) (fun _ _ _ _ _ _ _ _ h => h) h
      (List.forall₂_same.2 fun n _ => rfl) .empty fun p₁ q₁ m m' n n' h₁ hm hn => ?_
    obtain rfl : n' = n := hn
    have hmissing : M.ground.Same p₁.1.types q₁.1.types (if dead then .never else .nil)
        (if dead then .never else .nil) := by
      split
      · exact never_same h₁.pair
      · exact nil_same h₁.pair
    refine (join_agree h₁.pair ((hL.mono h₁.left h₁.right n').getD hmissing)
      ((hK.mono h₁.left h₁.right n').getD hmissing)).bind fun p₂ q₂ c d h₂ hcd => ?_
    exact .pure h₂.pair ((hm.mono h₂.left h₂.right).insert n' hcd)
  match dead, dead' with
  | false, true => exact .pure h hL
  | true, false => exact .pure h hK
  | false, false | true, true => exact join

theorem orNilExcept_agree {L L' : Locals} (hL : M.ground.SameMap p.1.types q.1.types L L') :
    M.scopes.Agree p q (orNilExcept L) (orNilExcept L') fun _ _ _ _ => True := by
  unfold orNilExcept
  refine locals_agree ?_
  refine (States.Agree.foldlM (R := M.ground.SameMap)
    (A := fun t u (x y : Name × TypeId) => x.1 = y.1 ∧ M.ground.Same t u x.2 y.2)
    (fun _ _ _ _ _ _ hl hr h => ⟨h.1, h.2.mono hl hr⟩) h h.2.locals.toList h.2.locals
    fun p₁ q₁ m m' x y h₁ hm hxy => ?_).bind fun p₁ q₁ m m' h₁ hm => setLocals_agree h₁.pair hm
  obtain ⟨n, a⟩ := x
  obtain ⟨n', b⟩ := y
  obtain ⟨rfl : n = n', hab⟩ := hxy
  refine .ite (by rw [hL.contains_eq]) (fun _ => .pure h₁.pair hm) fun _ => ?_
  exact (tables_agree h₁.pair (orNil_alike h₁.pair.1.twins hab)).bind fun p₂ q₂ c d h₂ hcd =>
    .pure h₂.pair ((hm.mono h₂.left h₂.right).insert n hcd)

theorem narrowing_agree (test : Term) {x y : InferIn TypeId}
    (hxy : ∀ {p q}, M.scopes.pair p q → M.scopes.Agree p q x y M.ground.Same) :
    M.scopes.Agree p q (narrowing test x) (narrowing test y) M.ground.Same := by
  unfold narrowing
  cases tested? test with
  | none => exact hxy h
  | some n =>
    refine local?_agree ?_
    have hfull := (h.2.locals n).getD (nil_same h)
    refine (tables_agree h (dropNil_alike h.1.twins hfull)).bind fun p₁ q₁ c d h₁ hcd => ?_
    refine (setLocal_agree h₁.pair n hcd).bind fun p₂ q₂ _ _ h₂ _ => ?_
    refine (hxy h₂.pair).attempt.bind fun p₃ q₃ r r' h₃ hr => local?_agree ?_
    have h₁₃ := h₂.trans h₃
    have hafter := (h₃.pair.2.locals n).getD (hcd.mono h₁₃.left h₁₃.right)
    have h₀₃ := h₁.trans h₁₃
    refine (join_agree h₃.pair (hfull.mono h₀₃.left h₀₃.right) hafter).bind
      fun p₄ q₄ e f h₄ hef => ?_
    refine (setLocal_agree h₄.pair n hef).bind fun p₅ q₅ _ _ h₅ _ => .ended h₅.pair ?_
    have h₃₅ := h₄.trans h₅
    match r, r' with
    | .ok a, .ok b => exact hr.mono h₃₅.left h₃₅.right
    | .error e, .error e' => exact hr

theorem joining_agree {L L' : Locals} (hL : M.ground.SameMap p.1.types q.1.types L L')
    (hab : M.ground.Same p.1.types q.1.types a b) {x y : InferIn TypeId}
    (hxy : ∀ {p q}, M.scopes.pair p q → M.scopes.Agree p q x y M.ground.Same) :
    M.scopes.Agree p q (joining L a x) (joining L' b y) M.ground.Same := by
  unfold joining
  refine locals_agree ((setLocals_agree h hL).bind fun p₁ q₁ _ _ h₁ _ => ?_)
  refine (hxy h₁.pair).bind fun p₂ q₂ c d h₂ hcd => locals_agree ?_
  have h₀₂ := h₁.trans h₂
  have hab₂ := hab.mono h₀₂.left h₀₂.right
  rw [hab₂.decide_eq_never h₂.pair.1.twins, hcd.decide_eq_never h₂.pair.1.twins]
  refine (joinLocals_agree h₂.pair (h.2.locals.mono h₀₂.left h₀₂.right) h₂.pair.2.locals _ _).bind
    fun p₃ q₃ K K' h₃ hK => ?_
  refine (setLocals_agree h₃.pair hK).bind fun p₄ q₄ _ _ h₄ _ => ?_
  have h₂₄ := h₃.trans h₄
  exact join_agree h₄.pair (hab₂.mono h₂₄.left h₂₄.right) (hcd.mono h₂₄.left h₂₄.right)

/-! ## Variables and constants -/

omit h in
theorem recorded_agree (site : Site) {x y : InferIn TypeId}
    (hxy : M.scopes.Agree p q x y M.ground.Same) :
    M.scopes.Agree p q (recorded site x) (recorded site y) M.ground.Same := by
  unfold recorded
  refine hxy.bind fun p₁ q₁ a b h₁ hab => scope_agree ?_
  refine (join_agree h₁.pair ((h₁.pair.2.body.exprTypes site.id).getD (never_same h₁.pair))
    hab).bind fun p₂ q₂ c d h₂ hcd => ?_
  have hbody := h₂.pair.2.body
  refine (modifyScope_agree h₂.pair { h₂.pair.2 with
    body := { hbody with exprTypes := hbody.exprTypes.insert site.id hcd } }).bind
    fun p₃ q₃ _ _ h₃ _ => .pure h₃.pair ?_
  have h₁₃ := h₂.trans h₃
  exact hab.mono h₁₃.left h₁₃.right

theorem assignLocal_agree (n : Name) (hab : M.ground.Same p.1.types q.1.types a b) :
    M.scopes.Agree p q (assignLocal n a) (assignLocal n b) fun _ _ _ _ => True := by
  unfold assignLocal
  refine .ite (not_congr (hab.eq_never h.1.twins)) (fun _ => local?_agree ?_)
    fun _ => .pure h trivial
  exact (join_agree h ((h.2.locals n).getD (never_same h)) hab).bind fun p₁ q₁ c d h₁ hcd =>
    setLocal_agree h₁.pair n hcd

theorem readIvar_agree (n : Name) :
    M.scopes.Agree p q (readIvar n) (readIvar n) M.ground.Same := by
  unfold readIvar
  refine scope_agree ?_
  rw [h.2.selfClass]
  cases p.2.selfClass with
  | none => exact .pure h (nil_same h)
  | some c =>
    exact .get (tables_agree h (orNil_alike h.1.twins ((h.1.ivars c n).getD (never_same h))))

theorem assignIvar_agree (n : Name) (hab : M.ground.Same p.1.types q.1.types a b) :
    M.scopes.Agree p q (assignIvar n a) (assignIvar n b) fun _ _ _ _ => True := by
  unfold assignIvar
  refine scope_agree ?_
  rw [h.2.selfClass]
  cases hc : p.2.selfClass with
  | none => exact .pure h trivial
  | some c =>
    dsimp only
    refine .ite (not_congr (hab.eq_never h.1.twins)) (fun _ => .get ?_) fun _ => .pure h trivial
    refine (tables_agree h (h.1.assignIvar (h.2.selfClass_lt c hc) n hab)).bind
      fun p₁ q₁ r r' h₁ hr => ?_
    obtain ⟨changed, g⟩ := r
    obtain ⟨changed', g'⟩ := r'
    obtain ⟨rfl : changed' = changed, hl, hr, hivars⟩ := hr
    exact .modified ⟨⟨{ h₁.pair.1 with
      left_tree := hl
      right_tree := hr
      ivars := hivars
      changed := congrArg (· || changed') h₁.pair.1.changed }, h₁.pair.2⟩, le_refl _, le_refl _⟩

theorem inferConst_agree (site : Site) (n : Name) :
    M.scopes.Agree p q (inferConst M.ctx site n) (inferConst M.other site n) M.ground.Same := by
  unfold inferConst
  refine .get ?_
  have hfind : q.1.hierarchy.find? n = p.1.hierarchy.find? n := by
    rw [← Hierarchy.find?_tree, h.1.right_tree, ← Hierarchy.find?_tree p.1.hierarchy,
      h.1.left_tree]
  simp only [Hierarchy.requireClass, hfind]
  cases hc : p.1.hierarchy.find? n with
  | none => exact .throw h rfl
  | some c =>
    have hlt := Hierarchy.find?_lt hc
    rw [← Hierarchy.size_tree, h.1.left_tree, M.size_tree] at hlt
    refine tables_agree h ((classObject_alike h.1.twins hlt).mono ?_)
    rintro t u a b H - - ⟨rfl, ha, -⟩
    exact .atom H ha

theorem atom_agree {a : TypeId} (ha : M.ground.Atom a) :
    M.scopes.Agree p q (pure a : InferIn TypeId) (pure a) M.ground.Same :=
  .pure h (.atom h.1.twins ha)

theorem arithmetic_agree (site : Site) (op : Primitive) {as bs : List TypeId}
    (has : List.Forall₂ (M.ground.Same p.1.types q.1.types) as bs) :
    M.scopes.Agree p q (arithmetic M.ctx site op as) (arithmetic M.other site op bs)
      M.ground.Same := by
  refine (join_agree h (.atom h.1.twins atom_int) (.atom h.1.twins atom_float)).bind
    fun p₁ q₁ number number' h₁ hnumber => .get ?_
  have H := h₁.pair.1.twins
  have has := has.imp fun _ _ hab => hab.mono h₁.left h₁.right
  have hfind := has.find? fun a b hab => congrArg (!·) (h₁.pair.1.isSubtype_eq hab hnumber)
  dsimp only
  generalize (as.find? fun a => !p₁.1.hierarchy.isSubtype p₁.1.types a number) = bad,
    (bs.find? fun b => !q₁.1.hierarchy.isSubtype q₁.1.types b number') = bad' at hfind ⊢
  cases hfind with
  | some hbad =>
    dsimp only
    rw [h₁.pair.1.typeText_eq hnumber, h₁.pair.1.typeText_eq hbad]
    exact .throw h₁.pair rfl
  | none =>
    have hint : as.all (· = .int) = bs.all (· = .int) :=
      has.all_eq fun a b hab => by simp only [hab.eq_atom H atom_int]
    have hfloat : as.contains .float = bs.contains .float := by
      rw [List.contains_eq_any_beq, List.contains_eq_any_beq]
      refine has.any_eq fun a b hab => ?_
      simp only [beq_eq_decide, eq_comm (a := TypeId.float), hab.eq_atom H atom_float]
    dsimp only
    rw [hint, hfloat]
    exact .ite Iff.rfl (fun _ => atom_agree h₁.pair atom_int) fun _ =>
      .ite Iff.rfl (fun _ => atom_agree h₁.pair atom_float) fun _ => .pure h₁.pair hnumber

theorem inferPrimitive_agree (site : Site) (op : Primitive) {as bs : List TypeId}
    (has : List.Forall₂ (M.ground.Same p.1.types q.1.types) as bs) :
    M.scopes.Agree p q (inferPrimitive M.ctx site op as) (inferPrimitive M.other site op bs)
      M.ground.Same := by
  unfold inferPrimitive
  refine .ite Iff.rfl (fun _ => atom_agree h atom_bool) fun _ => ?_
  cases op with
  | toInt => exact atom_agree h atom_int
  | toFloat => exact atom_agree h atom_float
  | _ => exact arithmetic_agree h site _ has

end

/-! ## Parts of terms -/

section
variable {x y x' y' : InferIn TypeId}

/-- Wherever they are run from states that have found the same, the computations agree. -/
def AgreesIn (M : Mirror) (x y : InferIn TypeId) : Prop :=
  ∀ {p q : State × Scope}, M.scopes.pair p q → M.scopes.Agree p q x y M.ground.Same

theorem unlessNever_agree (h : M.scopes.pair p q) (hab : M.ground.Same p.1.types q.1.types a b)
    (hxy : M.scopes.Agree p q x y M.ground.Same) :
    M.scopes.Agree p q (unlessNever a x) (unlessNever b y) M.ground.Same :=
  .ite (hab.eq_never h.1.twins) (fun _ => .pure h (never_same h)) fun _ => hxy

theorem connective_agree (h : M.scopes.pair p q) (hx : M.AgreesIn x x') (hy : M.AgreesIn y y') :
    M.scopes.Agree p q
      (do
        let a ← x
        unlessNever a do
          let bound ← locals
          let b ← y
          orNilExcept bound
          InferIn.union a b)
      (do
        let a ← x'
        unlessNever a do
          let bound ← locals
          let b ← y'
          orNilExcept bound
          InferIn.union a b) M.ground.Same := by
  refine (hx h).bind fun p₁ q₁ a a' h₁ ha => unlessNever_agree h₁.pair ha (locals_agree ?_)
  refine (hy h₁.pair).bind fun p₂ q₂ b b' h₂ hb => ?_
  refine (orNilExcept_agree h₂.pair (h₁.pair.2.locals.mono h₂.left h₂.right)).bind
    fun p₃ q₃ _ _ h₃ _ => ?_
  have h₁₃ := h₂.trans h₃
  exact join_agree h₃.pair (ha.mono h₁₃.left h₁₃.right) (hb.mono h₃.left h₃.right)

/-- What is returned early is added to what was before. -/
theorem returns_agree (h : M.scopes.pair p q) (hab : M.ground.Same p.1.types q.1.types a b) :
    M.scopes.Agree p q
      (do
        let returns ← InferIn.union (← scope).returns a
        modifyScope fun s => { s with returns }
        return .never)
      (do
        let returns ← InferIn.union (← scope).returns b
        modifyScope fun s => { s with returns }
        return .never) M.ground.Same := by
  refine scope_agree ((join_agree h h.2.returns hab).bind fun p₁ q₁ c d h₁ hcd => ?_)
  exact (modifyScope_agree h₁.pair (f := fun s => { s with returns := c })
    (g := fun s => { s with returns := d }) { h₁.pair.2 with returns := hcd }).bind
    fun p₂ q₂ _ _ h₂ _ => .pure h₂.pair (never_same h₂.pair)

/-- One round of a loop, with what is done after a round that changed the locals. -/
theorem round_agree (h : M.scopes.pair p q) (hx : M.AgreesIn x x') (hy : M.AgreesIn y y')
    {bound bound' : Option Locals}
    (hb : Option.Rel (M.ground.SameMap p.1.types q.1.types) bound bound')
    {f g : Locals → InferIn Unit}
    (hfg : ∀ {p₁ q₁ L L'}, M.scopes.pair p₁ q₁ → M.ground.SameMap p₁.1.types q₁.1.types L L' →
      M.scopes.Agree p₁ q₁ (f L) (g L') fun _ _ _ _ => True) :
    M.scopes.Agree p q
      (do
        let before ← locals
        let a ← x
        let bound := bound.getD (← locals)
        if a ≠ .never then
          let _ ← y
        if (← locals) = before then orNilExcept bound
        else f bound)
      (do
        let before ← locals
        let a ← x'
        let bound := bound'.getD (← locals)
        if a ≠ .never then
          let _ ← y'
        if (← locals) = before then orNilExcept bound
        else g bound) fun _ _ _ _ => True := by
  refine locals_agree ((hx h).bind fun p₁ q₁ a b h₁ hab => locals_agree ?_)
  have hbound : M.ground.SameMap p₁.1.types q₁.1.types (bound.getD p₁.2.locals)
      (bound'.getD q₁.2.locals) :=
    (hb.imp fun _ _ h => h.mono h₁.left h₁.right).getD h₁.pair.2.locals
  have finish {p₂ q₂ : State × Scope} (h₂ : M.scopes.After p₁ q₁ p₂ q₂) :
      M.scopes.Agree p₂ q₂
        (do
          if (← locals) = p.2.locals then orNilExcept (bound.getD p₁.2.locals)
          else f (bound.getD p₁.2.locals))
        (do
          if (← locals) = q.2.locals then orNilExcept (bound'.getD q₁.2.locals)
          else g (bound'.getD q₁.2.locals)) fun _ _ _ _ => True := by
    have h₀₂ := h₁.trans h₂
    have hbound := hbound.mono h₂.left h₂.right
    exact locals_agree (.ite (h₂.pair.2.locals.eq_iff h₂.pair.1.twins
      (h.2.locals.mono h₀₂.left h₀₂.right)) (fun _ => orNilExcept_agree h₂.pair hbound)
      fun _ => hfg h₂.pair hbound)
  exact .ite (not_congr (hab.eq_never h₁.pair.1.twins))
    (fun _ => (hy h₁.pair).bind fun p₂ q₂ _ _ h₂ _ => finish h₂) fun _ => finish (.refl h₁.pair)

theorem inferLoop_agree (site : Site) (hx : M.AgreesIn x x') (hy : M.AgreesIn y y') (left : Nat) :
    ∀ {p q : State × Scope} {bound bound' : Option Locals}, M.scopes.pair p q →
      Option.Rel (M.ground.SameMap p.1.types q.1.types) bound bound' →
      M.scopes.Agree p q (inferLoop M.ctx site x y left bound)
        (inferLoop M.other site x' y' left bound') fun _ _ _ _ => True := by
  induction left with
  | zero =>
    intro p q bound bound' h hb
    rw [World.inferLoop_zero, World.inferLoop_zero]
    exact round_agree h hx hy hb (f := fun _ => throw _) (g := fun _ => throw _)
      fun h₁ _ => .throw h₁ rfl
  | succ left ih =>
    intro p q bound bound' h hb
    rw [World.inferLoop_succ, World.inferLoop_succ]
    exact round_agree h hx hy hb (f := fun b => inferLoop M.ctx site x y left (some b))
      (g := fun b => inferLoop M.other site x' y' left (some b))
      fun h₁ hL => ih h₁ (.some hL)

end

section
set_option linter.unusedSectionVars false
variable {visit visit' : SpecId → Infer TypeId} (hv : M.VisitsAgree visit visit')
include hv

theorem inferCallAt_agree (h : M.scopes.pair p q) (site : Site) {receiver receiver' : Option TypeId}
    (hr : Option.Rel (M.ground.Same p.1.types q.1.types) receiver receiver') (method : Name)
    {args args' : List TypeId} (ha : List.Forall₂ (M.ground.Same p.1.types q.1.types) args args') :
    M.scopes.Agree p q (inferCallAt M.ctx visit site receiver method args)
      (inferCallAt M.other visit' site receiver' method args') M.ground.Same := by
  unfold inferCallAt
  refine scope_agree ?_
  have hself : M.ground.Same p.1.types q.1.types (p.2.self.getD .object)
      (q.2.self.getD .object) := by
    rw [h.2.self]
    cases hs : p.2.self with
    | none => exact .atom h.1.twins atom_object
    | some a => exact .atom h.1.twins (h.2.self_atom a hs)
  refine (lift_agree h.2 (inferCall_agree hv h.1 hr hself method ha site.span)).bind
    fun p₁ q₁ r r' h₁ hrr => ?_
  obtain ⟨a, rows⟩ := r
  obtain ⟨b, rows'⟩ := r'
  obtain ⟨hab, rfl : rows' = rows⟩ := hrr
  refine (modifyScope_agree h₁.pair { h₁.pair.2 with
    body := h₁.pair.2.body.addRows site.id rows' }).bind fun p₂ q₂ _ _ h₂ _ => ?_
  exact .pure h₂.pair (hab.mono h₂.left h₂.right)

/-! ## Terms -/

mutual

/-- A term has the same type on both sides, or the same error. -/
theorem inferTerm_agree : ∀ (t : Term) {p q : State × Scope}, M.scopes.pair p q →
    M.scopes.Agree p q (inferTerm M.ctx visit t) (inferTerm M.other visit' t) M.ground.Same
  | .nil site, p, q, h => by
    simp only [inferTerm]
    exact recorded_agree site (.pure h (nil_same h))
  | .bool site _, p, q, h => by
    simp only [inferTerm]
    exact recorded_agree site (.pure h (.atom h.1.twins atom_bool))
  | .int site _, p, q, h => by
    simp only [inferTerm]
    exact recorded_agree site (.pure h (.atom h.1.twins atom_int))
  | .float site _, p, q, h => by
    simp only [inferTerm]
    exact recorded_agree site (.pure h (.atom h.1.twins atom_float))
  | .self site, p, q, h => by
    simp only [inferTerm]
    refine recorded_agree site (scope_agree (.pure h ?_))
    rw [h.2.self]
    cases hs : p.2.self with
    | none => exact .atom h.1.twins atom_object
    | some a => exact .atom h.1.twins (h.2.self_atom a hs)
  | .var site n, p, q, h => by
    simp only [inferTerm]
    exact recorded_agree site (local?_agree (.pure h ((h.2.locals n).getD (nil_same h))))
  | .assign site n value, p, q, h => by
    simp only [inferTerm]
    refine recorded_agree site ((inferTerm_agree value h).bind fun p₁ q₁ a b h₁ hab => ?_)
    exact (assignLocal_agree h₁.pair n hab).bind fun p₂ q₂ _ _ h₂ _ =>
      .pure h₂.pair (hab.mono h₂.left h₂.right)
  | .ivar site n, p, q, h => by
    simp only [inferTerm]
    exact recorded_agree site (readIvar_agree h n)
  | .setIvar site n value, p, q, h => by
    simp only [inferTerm]
    refine recorded_agree site ((inferTerm_agree value h).bind fun p₁ q₁ a b h₁ hab => ?_)
    exact (assignIvar_agree h₁.pair n hab).bind fun p₂ q₂ _ _ h₂ _ =>
      .pure h₂.pair (hab.mono h₂.left h₂.right)
  | .const site n, p, q, h => by
    simp only [inferTerm]
    exact recorded_agree site (inferConst_agree h site n)
  | .call site receiver method args, p, q, h => by
    simp only [inferTerm]
    refine recorded_agree site ((inferTerm_agree receiver h).bind fun p₁ q₁ a b h₁ hab =>
      unlessNever_agree h₁.pair hab ((inferArgs_agree args h₁.pair).bind
        fun p₂ q₂ as bs h₂ has => ?_))
    cases has with
    | none => exact .pure h₂.pair (never_same h₂.pair)
    | some has =>
      exact inferCallAt_agree hv h₂.pair site (.some (hab.mono h₂.left h₂.right)) method has
  | .send site method args, p, q, h => by
    simp only [inferTerm]
    refine recorded_agree site ((inferArgs_agree args h).bind fun p₁ q₁ as bs h₁ has => ?_)
    cases has with
    | none => exact .pure h₁.pair (never_same h₁.pair)
    | some has => exact inferCallAt_agree hv h₁.pair site .none method has
  | .ifThen site test yes, p, q, h => by
    simp only [inferTerm]
    refine recorded_agree site ((inferTerm_agree test h).bind fun p₁ q₁ a b h₁ hab =>
      unlessNever_agree h₁.pair hab (locals_agree ?_))
    refine (narrowing_agree h₁.pair test (inferTerm_agree yes)).bind fun p₂ q₂ c d h₂ hcd => ?_
    exact joining_agree h₂.pair (h₁.pair.2.locals.mono h₂.left h₂.right) hcd
      fun h₃ => .pure h₃ (nil_same h₃)
  | .ifElse site test yes no, p, q, h => by
    simp only [inferTerm]
    refine recorded_agree site ((inferTerm_agree test h).bind fun p₁ q₁ a b h₁ hab =>
      unlessNever_agree h₁.pair hab (locals_agree ?_))
    refine (narrowing_agree h₁.pair test (inferTerm_agree yes)).bind fun p₂ q₂ c d h₂ hcd => ?_
    exact joining_agree h₂.pair (h₁.pair.2.locals.mono h₂.left h₂.right) hcd (inferTerm_agree no)
  | .loop site test body, p, q, h => by
    simp only [inferTerm]
    exact recorded_agree site ((inferLoop_agree site (inferTerm_agree test) (inferTerm_agree body)
      _ h .none).bind fun p₁ q₁ _ _ h₁ _ => .pure h₁.pair (nil_same h₁.pair))
  | .andAlso site left right, p, q, h | .orElse site left right, p, q, h => by
    simp only [inferTerm]
    exact recorded_agree site (connective_agree h (inferTerm_agree left) (inferTerm_agree right))
  | .ret site, p, q, h => by
    simp only [inferTerm]
    exact recorded_agree site (returns_agree h (nil_same h))
  | .retValue site value, p, q, h => by
    simp only [inferTerm]
    exact recorded_agree site ((inferTerm_agree value h).bind fun p₁ q₁ a b h₁ hab =>
      returns_agree h₁.pair hab)
  | .block site stmts, p, q, h => by
    simp only [inferTerm]
    exact recorded_agree site (inferStmts_agree stmts h (nil_same h))
  | .primitive site op args, p, q, h => by
    simp only [inferTerm]
    refine recorded_agree site ((inferArgs_agree args h).bind fun p₁ q₁ as bs h₁ has => ?_)
    cases has with
    | none => exact .pure h₁.pair (never_same h₁.pair)
    | some has => exact inferPrimitive_agree h₁.pair site op has

theorem inferArgs_agree : ∀ (ts : List Term) {p q : State × Scope}, M.scopes.pair p q →
    M.scopes.Agree p q (inferArgs M.ctx visit ts) (inferArgs M.other visit' ts)
      fun t u => Option.Rel (List.Forall₂ (M.ground.Same t u))
  | [], p, q, h => by
    simp only [inferArgs]
    exact .pure h (.some .nil)
  | t :: ts, p, q, h => by
    simp only [inferArgs]
    refine (inferTerm_agree t h).bind fun p₁ q₁ a b h₁ hab => ?_
    refine .ite (hab.eq_never h₁.pair.1.twins) (fun _ => .pure h₁.pair .none) fun _ => ?_
    refine (inferArgs_agree ts h₁.pair).bind fun p₂ q₂ as bs h₂ has => .pure h₂.pair ?_
    cases has with
    | none => exact .none
    | some has => exact .some (.cons (hab.mono h₂.left h₂.right) has)

theorem inferStmts_agree : ∀ (ts : List Term) {p q : State × Scope} {a b : TypeId},
    M.scopes.pair p q → M.ground.Same p.1.types q.1.types a b →
    M.scopes.Agree p q (inferStmts M.ctx visit a ts) (inferStmts M.other visit' b ts) M.ground.Same
  | [], p, q, a, b, h, hab => by
    simp only [inferStmts]
    exact .pure h hab
  | t :: ts, p, q, a, b, h, _ => by
    simp only [inferStmts]
    refine (inferTerm_agree t h).bind fun p₁ q₁ a b h₁ hab => ?_
    exact .ite (hab.eq_never h₁.pair.1.twins) (fun _ => .pure h₁.pair (never_same h₁.pair))
      fun _ => inferStmts_agree ts h₁.pair hab

end

end

end Multimethod.Mirror
