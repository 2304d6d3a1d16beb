import Multimethod.Proofs.Order.Resolution
import Multimethod.Proofs.Specialization

/-!
# States of two inferences

Two inferences that differ in the order of the methods find the same, except that methods are
replaced by their counterparts and unions may have other handles (`Mirror.Pair`). Computations agree
if from such states they lead to such states, with corresponding results (`States.Agree`).
-/

namespace Multimethod

open Inference TypeTable

namespace Ground

variable {G : Ground} {t u t' u' : TypeTable} {k : Kind}

/-! ## Maps to types -/

variable (G) in
/-- The maps have the same keys, with the same types. -/
def SameMap (t u : TypeTable) (m m' : Map k TypeId) : Prop :=
  ∀ i : Handle k, Option.Rel (G.Same t u) m[i]? m'[i]?

namespace SameMap

variable {m m' l l' : Map k TypeId} {a b : TypeId}

theorem empty : G.SameMap t u (∅ : Map k TypeId) ∅ := fun i => by
  rw [Std.ExtTreeMap.getElem?_empty]
  exact .none

theorem mono (h : G.SameMap t u m m') (hl : t ≤ t') (hr : u ≤ u') : G.SameMap t' u' m m' :=
  fun i => (h i).imp fun _ _ h => h.mono hl hr

theorem insert (h : G.SameMap t u m m') (i : Handle k) (hab : G.Same t u a b) :
    G.SameMap t u (m.insert i a) (m'.insert i b) := fun j => by
  simp only [Std.ExtTreeMap.getElem?_insert]
  split
  · exact .some hab
  · exact h j

theorem contains_eq (h : G.SameMap t u m m') (i : Handle k) : m.contains i = m'.contains i := by
  rw [Std.ExtTreeMap.contains_eq_isSome_getElem?, Std.ExtTreeMap.contains_eq_isSome_getElem?]
  exact (h i).isSome_eq

/-- Maps are equal on one side if they are on the other. -/
theorem eq_iff (H : G.Twins t u) (h : G.SameMap t u m m') (h' : G.SameMap t u l l') :
    m = l ↔ m' = l' := by
  have hu := Option.Rel.biUnique (Same.biUnique H)
  constructor
  · rintro rfl
    exact Std.ExtTreeMap.ext_getElem? fun i => hu.2 (h i) (h' i)
  · rintro rfl
    exact Std.ExtTreeMap.ext_getElem? fun i => hu.1 (h i) (h' i)

theorem keys_eq (h : G.SameMap t u m m') : m.keys = m'.keys := by
  have sorted (m : Map k TypeId) : m.keys.Pairwise (· < ·) :=
    Std.ExtTreeMap.ordered_keys.imp Handle.compare_eq_lt.1
  refine Handle.eq_of_mem_iff (sorted m) (sorted m') fun i => ?_
  rw [Std.ExtTreeMap.mem_keys, Std.ExtTreeMap.mem_keys, ← Std.ExtTreeMap.contains_iff_mem,
    ← Std.ExtTreeMap.contains_iff_mem, h.contains_eq]

theorem toList (h : G.SameMap t u m m') :
    List.Forall₂ (fun p q => p.1 = q.1 ∧ G.Same t u p.2 q.2) m.toList m'.toList := by
  have hkeys : m.toList.map Prod.fst = m'.toList.map Prod.fst := by
    simpa using h.keys_eq
  have hlen : m.toList.length = m'.toList.length := by
    simpa using congrArg List.length hkeys
  refine List.forall₂_iff_get.2 ⟨hlen, fun i hi hi' => ?_⟩
  have hkey : (m.toList.get ⟨i, hi⟩).1 = (m'.toList.get ⟨i, hi'⟩).1 := by
    have hi₁ : i < (m.toList.map Prod.fst).length := by simpa using hi
    simpa only [List.getElem_map, List.get_eq_getElem] using List.getElem_of_eq hkeys hi₁
  have found {m : Map k TypeId} {p : Handle k × TypeId} (hp : p ∈ m.toList) : m[p.1]? = some p.2 :=
    Std.ExtTreeMap.mem_toList_iff_getElem?_eq_some.1 hp
  have hsame := h (m.toList.get ⟨i, hi⟩).1
  rw [found (List.get_mem m.toList _), hkey, found (List.get_mem m'.toList _)] at hsame
  exact ⟨hkey, Option.rel_some_some.1 hsame⟩

end SameMap

/-! ## Bodies -/

variable (G) in
/-- The bodies were found to do the same. -/
structure SameBody (t u : TypeTable) (b b' : Body) : Prop where
  exprTypes : G.SameMap t u b.exprTypes b'.exprTypes
  dispatch : b'.dispatch = b.dispatch
  paramTypes : List.Forall₂ (G.Same t u) b.paramTypes b'.paramTypes

namespace SameBody

variable {b b' : Body}

theorem empty : G.SameBody t u {} {} := ⟨.empty, rfl, .nil⟩

theorem mono (h : G.SameBody t u b b') (hl : t ≤ t') (hr : u ≤ u') : G.SameBody t' u' b b' :=
  ⟨h.exprTypes.mono hl hr, h.dispatch, h.paramTypes.imp fun _ _ h => h.mono hl hr⟩

theorem addRows (h : G.SameBody t u b b') (e : ExprId) (rows : DispatchTable) :
    G.SameBody t u (b.addRows e rows) (b'.addRows e rows) :=
  ⟨h.exprTypes, by simp only [Body.addRows, Body.dispatchAt, h.dispatch], h.paramTypes⟩

end SameBody

/-! ## Specializations -/

variable (G) in
/-- The keys are for counterparts and the same types. -/
structure SameKey (ms ms' : MethodTable) (k k' : SpecKey) : Prop where
  method : ∃ n, Counterparts ms ms' n k.method k'.method
  receiver : k'.receiver = k.receiver
  args : k'.args = k.args
  receiver_atom : ∀ a ∈ k.receiver, G.Atom a
  args_atom : ∀ a ∈ k.args, G.Atom a

theorem SameKey.eq_iff {ms ms' : MethodTable} {k k' l l' : SpecKey} (h : G.SameKey ms ms' k k')
    (h' : G.SameKey ms ms' l l') : k = l ↔ k' = l' := by
  obtain ⟨n, hm⟩ := h.method
  obtain ⟨n', hm'⟩ := h'.method
  have hr := h.receiver
  have ha := h.args
  have hr' := h'.receiver
  have ha' := h'.args
  obtain ⟨m, r, as⟩ := k
  obtain ⟨m', r', as'⟩ := k'
  obtain ⟨p, q, cs⟩ := l
  obtain ⟨p', q', cs'⟩ := l'
  dsimp only at hm hm' hr ha hr' ha'
  subst hr ha hr' ha'
  simp only [SpecKey.mk.injEq]
  exact and_congr_left fun _ =>
    ⟨fun h => hm.right_unique (h ▸ hm'), fun h => hm.left_unique (h ▸ hm')⟩

variable (G) in
/-- The same is known of both specializations. -/
structure SameSpec (ms ms' : MethodTable) (t u : TypeTable) (i i' : Specialization) : Prop where
  key : G.SameKey ms ms' i.key i'.key
  returnType : G.Same t u i.returnType i'.returnType
  stage : i'.stage = i.stage
  body : G.SameBody t u i.body i'.body
  answers : i'.answers.isEmpty = i.answers.isEmpty
  donePass : i'.donePass = i.donePass

theorem SameSpec.mono {ms ms' : MethodTable} {i i' : Specialization}
    (h : G.SameSpec ms ms' t u i i') (hl : t ≤ t') (hr : u ≤ u') : G.SameSpec ms ms' t' u' i i' :=
  { h with returnType := h.returnType.mono hl hr, body := h.body.mono hl hr }

theorem SameSpec.freeze {ms ms' : MethodTable} {i i' : Specialization} (H : G.Twins t u)
    (h : G.SameSpec ms ms' t u i i') : G.SameSpec ms ms' t u i.freeze i'.freeze := by
  unfold Specialization.freeze
  rw [h.stage]
  split
  · exact h
  · refine { h with stage := rfl, returnType := ?_ }
    by_cases hn : i.returnType = .never
    · rw [if_pos hn, if_pos ((h.returnType.eq_never H).1 hn)]
      exact .nil H
    · rw [if_neg hn, if_neg (mt (h.returnType.eq_never H).2 hn)]
      exact h.returnType

/-! ## Scopes -/

variable (G) in
/-- The evaluations of two bodies have come to the same point. -/
structure SameScope (t u : TypeTable) (s s' : Scope) : Prop where
  self : s'.self = s.self
  self_atom : ∀ a ∈ s.self, G.Atom a
  selfClass : s'.selfClass = s.selfClass
  selfClass_lt : ∀ c ∈ s.selfClass, c.index < G.classes
  locals : G.SameMap t u s.locals s'.locals
  returns : G.Same t u s.returns s'.returns
  body : G.SameBody t u s.body s'.body

theorem SameScope.mono {s s' : Scope} (h : G.SameScope t u s s') (hl : t ≤ t') (hr : u ≤ u') :
    G.SameScope t' u' s s' :=
  { h with
    locals := h.locals.mono hl hr
    returns := h.returns.mono hl hr
    body := h.body.mono hl hr }

end Ground

/-! ## Computations that agree -/

/-- When two states correspond, and what types they describe. -/
structure States (S : Type) where
  pair : S → S → Prop
  types : S → TypeTable

namespace States

variable {α α' β β' S : Type} (K : States S) {σ τ σ₀ τ₀ : S}

/-- The states have grown from some states, and correspond. -/
structure After (σ₀ τ₀ σ τ : S) : Prop where
  pair : K.pair σ τ
  left : K.types σ₀ ≤ K.types σ
  right : K.types τ₀ ≤ K.types τ

/-- Wherever both computations end, their states and their results correspond. -/
def Agree (σ τ : S) (x : ExceptT TypeError (StateT S Option) α)
    (y : ExceptT TypeError (StateT S Option) β) (R : TypeTable → TypeTable → α → β → Prop) : Prop :=
  ∀ r σ' r' τ', x σ = some (r, σ') → y τ = some (r', τ') →
    K.After σ τ σ' τ' ∧ Outcomes (R (K.types σ') (K.types τ')) r r'

variable {K}

theorem After.refl (h : K.pair σ τ) : K.After σ τ σ τ := ⟨h, le_refl _, le_refl _⟩

theorem After.trans {σ₁ τ₁ : S} (h : K.After σ₀ τ₀ σ₁ τ₁) (h' : K.After σ₁ τ₁ σ τ) :
    K.After σ₀ τ₀ σ τ := ⟨h'.pair, le_trans h.left h'.left, le_trans h.right h'.right⟩

namespace Agree

variable {x : ExceptT TypeError (StateT S Option) α} {y : ExceptT TypeError (StateT S Option) β}
  {R : TypeTable → TypeTable → α → β → Prop}

theorem pure (h : K.pair σ τ) {a : α} {b : β} (hab : R (K.types σ) (K.types τ) a b) :
    K.Agree σ τ (Pure.pure a) (Pure.pure b) R := by
  rintro r σ' r' τ' ⟨⟩ ⟨⟩
  exact ⟨.refl h, hab⟩

theorem throw (h : K.pair σ τ) {e e' : TypeError} (he : e = e') :
    K.Agree σ τ (MonadExcept.throw e) (MonadExcept.throw e') R := by
  rintro r σ' r' τ' ⟨⟩ ⟨⟩
  exact ⟨.refl h, he⟩

theorem bind {f : α → ExceptT TypeError (StateT S Option) α'}
    {g : β → ExceptT TypeError (StateT S Option) β'} {Q : TypeTable → TypeTable → α' → β' → Prop}
    (h : K.Agree σ τ x y R)
    (hf : ∀ σ' τ' a b, K.After σ τ σ' τ' → R (K.types σ') (K.types τ') a b →
      K.Agree σ' τ' (f a) (g b) Q) : K.Agree σ τ (x >>= f) (y >>= g) Q := by
  intro r σ' r' τ' hx hy
  obtain ⟨⟨r₁, σ₁⟩, hx₁, hx⟩ := Option.bind_eq_some_iff.1 hx
  obtain ⟨⟨r₁', τ₁⟩, hy₁, hy⟩ := Option.bind_eq_some_iff.1 hy
  obtain ⟨hafter, hr⟩ := h r₁ σ₁ r₁' τ₁ hx₁ hy₁
  match r₁, r₁' with
  | .ok a, .ok b =>
    obtain ⟨hafter', hr'⟩ := hf σ₁ τ₁ a b hafter hr r σ' r' τ' hx hy
    exact ⟨hafter.trans hafter', hr'⟩
  | .error e, .error e' =>
    cases hx
    cases hy
    exact ⟨hafter, hr⟩

/-- Computations that look at their states. -/
theorem get {f : S → ExceptT TypeError (StateT S Option) α}
    {g : S → ExceptT TypeError (StateT S Option) β} (h : K.Agree σ τ (f σ) (g τ) R) :
    K.Agree σ τ (do f (← MonadState.get)) (do g (← MonadState.get)) R := h

theorem modified {f g : S → S} (h : K.After σ τ (f σ) (g τ)) :
    K.Agree σ τ (modify f) (modify g) fun _ _ _ _ => True := by
  rintro r σ' r' τ' ⟨⟩ ⟨⟩
  exact ⟨h, trivial⟩

/-- Branches taken on both sides or on neither. -/
theorem ite {p q : Prop} [Decidable p] [Decidable q]
    {x' : ExceptT TypeError (StateT S Option) α} {y' : ExceptT TypeError (StateT S Option) β}
    (hpq : p ↔ q) (hx : p → K.Agree σ τ x y R) (hx' : ¬ p → K.Agree σ τ x' y' R) :
    K.Agree σ τ (if p then x else x') (if q then y else y') R := by
  by_cases hp : p
  · rw [if_pos hp, if_pos (hpq.1 hp)]
    exact hx hp
  · rw [if_neg hp, if_neg (mt hpq.2 hp)]
    exact hx' hp

/-- How two computations ended, handed on. -/
theorem attempt (h : K.Agree σ τ x y R) :
    K.Agree σ τ (ExceptT.lift x.run) (ExceptT.lift y.run) fun t u => Outcomes (R t u) := by
  intro r σ' r' τ' hx hy
  obtain ⟨⟨r₁, σ₁⟩, hx₁, hx⟩ := Option.bind_eq_some_iff.1 hx
  obtain ⟨⟨r₁', τ₁⟩, hy₁, hy⟩ := Option.bind_eq_some_iff.1 hy
  cases hx
  cases hy
  exact h r₁ σ' r₁' τ' hx₁ hy₁

/-- Going through two lists in parallel, with intermediate results that correspond. -/
theorem foldlM {γ γ' : Type} {A : TypeTable → TypeTable → γ → γ' → Prop}
    (hA : ∀ t u t' u' a b, t ≤ t' → u ≤ u' → A t u a b → A t' u' a b)
    {f : α → γ → ExceptT TypeError (StateT S Option) α}
    {g : β → γ' → ExceptT TypeError (StateT S Option) β} {l : List γ} {l' : List γ'} {a : α} {b : β}
    (h : K.pair σ τ) (hl : List.Forall₂ (A (K.types σ) (K.types τ)) l l')
    (hab : R (K.types σ) (K.types τ) a b)
    (hf : ∀ σ' τ' a b c d, K.After σ τ σ' τ' → R (K.types σ') (K.types τ') a b →
      A (K.types σ') (K.types τ') c d → K.Agree σ' τ' (f a c) (g b d) R) :
    K.Agree σ τ (l.foldlM f a) (l'.foldlM g b) R := by
  have go {l : List γ} {l' : List γ'} (hl : List.Forall₂ (A (K.types σ) (K.types τ)) l l') :
      ∀ {σ' τ' a b}, K.After σ τ σ' τ' → R (K.types σ') (K.types τ') a b →
        K.Agree σ' τ' (l.foldlM f a) (l'.foldlM g b) R := by
    induction hl with
    | nil => exact fun h' hab => .pure h'.pair hab
    | cons hcd _ ih =>
      intro σ' τ' a b h' hab
      rw [List.foldlM_cons, List.foldlM_cons]
      exact (hf _ _ _ _ _ _ h' hab (hA _ _ _ _ _ _ h'.left h'.right hcd)).bind
        fun σ₁ τ₁ a b h₁ hab => ih (h'.trans h₁) hab
  exact go hl (.refl h) hab

theorem ended (h : K.pair σ τ) {r : Except TypeError α} {r' : Except TypeError β}
    (hr : Outcomes (R (K.types σ) (K.types τ)) r r') :
    K.Agree σ τ (ExceptT.mk (Pure.pure r)) (ExceptT.mk (Pure.pure r')) R := by
  rintro r σ' r' τ' ⟨⟩ ⟨⟩
  exact ⟨.refl h, hr⟩

end Agree

end States

/-! ## Two inferences -/

/-- What two inferences that differ in the order of the methods have in common, and the methods of
the second one. -/
structure Mirror where
  ground : Ground
  ctx : Context
  methods : MethodTable
  tree : Hierarchy
  size_tree : tree.size = ground.classes

namespace Mirror

variable (M : Mirror)

/-- What the second inference reads. -/
def other : Context := { M.ctx with methods := M.methods }

/-- The states have found the same. -/
structure Pair (σ τ : State) : Prop where
  twins : M.ground.Twins σ.types τ.types
  paired : M.ground.Paired σ.types τ.types M.ctx.methods M.methods
  left_tree : σ.hierarchy.tree = M.tree
  right_tree : τ.hierarchy.tree = M.tree
  ivars : ∀ c n, Option.Rel (M.ground.Same σ.types τ.types) (σ.hierarchy.ivarType c n)
    (τ.hierarchy.ivarType c n)
  specs : ∀ s, Option.Rel (M.ground.SameSpec M.ctx.methods M.methods σ.types τ.types)
    (σ.specs.get? s) (τ.specs.get? s)
  pass : τ.pass = σ.pass
  changed : τ.changed = σ.changed

/-- States that have found the same. -/
def states : States State := ⟨M.Pair, (·.types)⟩

/-- States that have found the same, in evaluations that have come to the same point. -/
def scopes : States (State × Scope) where
  pair σ τ := M.Pair σ.1 τ.1 ∧ M.ground.SameScope σ.1.types τ.1.types σ.2 τ.2
  types σ := σ.1.types

variable {M} {σ τ : State} {s s' : Scope} {t u : TypeTable}

namespace Pair

/-- More types are described. -/
theorem grow (h : M.Pair σ τ) (H : M.ground.Twins t u) (hl : σ.types ≤ t) (hr : τ.types ≤ u) :
    M.Pair { σ with types := t } { τ with types := u } where
  twins := H
  paired := h.paired.mono hl hr
  left_tree := h.left_tree
  right_tree := h.right_tree
  ivars c n := (h.ivars c n).imp fun _ _ h => h.mono hl hr
  specs s := (h.specs s).imp fun _ _ h => h.mono hl hr
  pass := h.pass
  changed := h.changed

theorem size_eq (h : M.Pair σ τ) : σ.specs.size = τ.specs.size := by
  have hle {σ τ : State} (h : ∀ s, (σ.specs.get? s).isSome → (τ.specs.get? s).isSome) :
      σ.specs.size ≤ τ.specs.size := by
    by_contra hlt
    have hlt' : (⟨τ.specs.size⟩ : SpecId).index < σ.specs.size := Nat.lt_of_not_le hlt
    obtain ⟨i, hi⟩ := Specializations.exists_get? hlt'
    obtain ⟨j, hj⟩ := Option.isSome_iff_exists.1 (h ⟨τ.specs.size⟩ (by rw [hi]; rfl))
    exact Nat.lt_irrefl _ (Specializations.lt_size hj)
  exact Nat.le_antisymm (hle fun s => (h.specs s).isSome_eq ▸ id)
    (hle fun s => (h.specs s).isSome_eq ▸ id)

/-- The tables that resolution reads, up to the types of instance variables. -/
theorem registry_tree (h : M.Pair σ τ) :
    (Registry.mk M.other.names M.other.core τ.hierarchy M.other.methods).tree =
      { (Registry.mk M.ctx.names M.ctx.core σ.hierarchy M.ctx.methods).tree with
        methods := M.methods } := by
  simp only [Registry.tree, other, h.left_tree, h.right_tree]

theorem isSubtype_eq (h : M.Pair σ τ) {a b a' b' : TypeId}
    (hab : M.ground.Same σ.types τ.types a b) (hab' : M.ground.Same σ.types τ.types a' b') :
    σ.hierarchy.isSubtype σ.types a a' = τ.hierarchy.isSubtype τ.types b b' := by
  rw [← Hierarchy.isSubtype_tree, h.left_tree, ← Hierarchy.isSubtype_tree τ.hierarchy,
    h.right_tree, Ground.isSubtype_eq M.tree h.twins hab hab']

theorem typeText_eq (h : M.Pair σ τ) {a b : TypeId} (hab : M.ground.Same σ.types τ.types a b) :
    σ.hierarchy.typeText σ.types M.ctx.names a =
      τ.hierarchy.typeText τ.types M.other.names b := by
  rw [← Hierarchy.typeText_tree, h.left_tree, ← Hierarchy.typeText_tree τ.hierarchy,
    h.right_tree, Ground.typeText_eq M.tree h.twins hab]
  rfl

theorem find?_eq (h : M.Pair σ τ) {k k' : SpecKey}
    (hk : M.ground.SameKey M.ctx.methods M.methods k k') :
    σ.specs.find? k = τ.specs.find? k' := by
  refine Option.ext fun s => ?_
  rw [Specializations.find?_eq_some, Specializations.find?_eq_some]
  have hs := h.specs s
  generalize σ.specs.get? s = i, τ.specs.get? s = i' at hs ⊢
  cases hs with
  | none => simp
  | some hi => simpa using hi.key.eq_iff hk

/-- Widening an instance variable. -/
theorem assignIvar (h : M.Pair σ τ) {c : ClassId} (hc : c.index < M.ground.classes) (n : Name)
    {a b : TypeId} (hab : M.ground.Same σ.types τ.types a b) :
    M.ground.Alike σ.types τ.types (σ.hierarchy.assignIvar c n a) (τ.hierarchy.assignIvar c n b)
      fun t u r r' => r'.1 = r.1 ∧ r.2.tree = M.tree ∧ r'.2.tree = M.tree ∧
        ∀ c n, Option.Rel (M.ground.Same t u) (r.2.ivarType c n) (r'.2.ivarType c n) := by
  have hold := (h.ivars c n).getD (.never h.twins)
  have hlt {g : Hierarchy} (hg : g.tree = M.tree) : c.index < g.size := by
    rwa [← Hierarchy.size_tree, hg, M.size_tree]
  unfold Hierarchy.assignIvar
  refine (Ground.union_alike h.twins hold hab).bind fun t u d e H hl hr hde => ?_
  have hivars (c n) := (h.ivars c n).imp fun _ _ h => h.mono hl hr
  refine .ite (hde.eq_iff H (hold.mono hl hr))
    (fun _ => .pure H ⟨rfl, h.left_tree, h.right_tree, hivars⟩) fun _ => ?_
  refine .pure H ⟨rfl, (Hierarchy.tree_modify_ivars _ c (·.insert n d)).trans h.left_tree,
    (Hierarchy.tree_modify_ivars _ c (·.insert n e)).trans h.right_tree, fun c' n' => ?_⟩
  simp only [Hierarchy.ivarType_assign _ (hlt h.left_tree),
    Hierarchy.ivarType_assign _ (hlt h.right_tree)]
  split
  · exact .some hde
  · exact hivars c' n'

end Pair

/-! ## Computations on the type table -/

section
variable {α β : Type} {R : TypeTable → TypeTable → α → β → Prop}

theorem onTypes_agree (h : M.Pair σ τ) {x : StateM TypeTable α} {y : StateM TypeTable β}
    (hxy : M.ground.Alike σ.types τ.types x y R) :
    M.states.Agree σ τ (Infer.onTypes x) (Infer.onTypes y) R := by
  rintro r σ' r' τ' ⟨⟩ ⟨⟩
  exact ⟨⟨h.grow hxy.twins hxy.left hxy.right, hxy.left, hxy.right⟩, hxy.post⟩

theorem resolving_agree (h : M.Pair σ τ) {x : ExceptT TypeError (StateM TypeTable) α}
    {y : ExceptT TypeError (StateM TypeTable) β}
    (hxy : M.ground.Alike σ.types τ.types x.run y.run fun t u => Outcomes (R t u)) :
    M.states.Agree σ τ (Infer.resolving x) (Infer.resolving y) R := by
  refine (onTypes_agree h hxy).bind fun σ₁ τ₁ r r' h₁ hr => ?_
  match r, r' with
  | .ok a, .ok b => exact .pure h₁.pair hr
  | .error e, .error e' => exact .throw h₁.pair hr

theorem lift_agree (hs : M.ground.SameScope σ.types τ.types s s') {x : Infer α} {y : Infer β}
    (h : M.states.Agree σ τ x y R) :
    M.scopes.Agree (σ, s) (τ, s') (InferIn.lift x) (InferIn.lift y) R := by
  intro r p r' q hx hy
  obtain ⟨⟨r₁, σ₁⟩, hx₁, hx⟩ := Option.bind_eq_some_iff.1 hx
  obtain ⟨⟨r₁', τ₁⟩, hy₁, hy⟩ := Option.bind_eq_some_iff.1 hy
  cases hx
  cases hy
  obtain ⟨hafter, hr⟩ := h r σ₁ r' τ₁ hx₁ hy₁
  exact ⟨⟨⟨hafter.pair, hs.mono hafter.left hafter.right⟩, hafter.left, hafter.right⟩, hr⟩

theorem within_agree {x : InferIn α} {y : InferIn β}
    (h : M.scopes.Agree (σ, s) (τ, s') x y R) :
    M.states.Agree σ τ (Infer.within s x) (Infer.within s' y) fun t u p q =>
      R t u p.1 q.1 ∧ M.ground.SameScope t u p.2 q.2 := by
  intro r σ' r' τ' hx hy
  obtain ⟨⟨r₁, σ₁, s₁⟩, hx₁, hx⟩ := Option.bind_eq_some_iff.1 hx
  obtain ⟨⟨r₁', τ₁, s₁'⟩, hy₁, hy⟩ := Option.bind_eq_some_iff.1 hy
  cases hx
  cases hy
  obtain ⟨hafter, hr⟩ := h r₁ (σ', s₁) r₁' (τ', s₁') hx₁ hy₁
  refine ⟨⟨hafter.pair.1, hafter.left, hafter.right⟩, ?_⟩
  match r₁, r₁' with
  | .ok a, .ok b => exact ⟨hr, hafter.pair.2⟩
  | .error e, .error e' => exact hr

end

/-! ## Specializations -/

/-- A specialization that nothing is known of. -/
theorem sameSpec_fresh (H : M.ground.Twins t u) {k k' : SpecKey}
    (hk : M.ground.SameKey M.ctx.methods M.methods k k') :
    M.ground.SameSpec M.ctx.methods M.methods t u { key := k } { key := k' } :=
  ⟨hk, .never H, rfl, .empty, rfl, rfl⟩

/-- Keys for the same have one specialization, created on both sides if need be. -/
theorem specialize_agree (h : M.Pair σ τ) {k k' : SpecKey}
    (hk : M.ground.SameKey M.ctx.methods M.methods k k') :
    M.states.Agree σ τ (Infer.specialize k) (Infer.specialize k') fun _ _ s s' => s' = s := by
  have run (k : SpecKey) (σ : State) : Infer.specialize k σ = some (.ok (σ.specs.demand k).1,
      { σ with
        specs := (σ.specs.demand k).2.2, changed := σ.changed || (σ.specs.demand k).2.1 }) := rfl
  have hfind := h.find?_eq hk
  intro r σ' r' τ' hx hy
  rw [run] at hx hy
  cases hf : σ.specs.find? k with
  | some s =>
    rw [Specializations.demand_of_find? hf] at hx
    rw [Specializations.demand_of_find? (hfind ▸ hf)] at hy
    cases hx
    cases hy
    exact ⟨⟨{ h with changed := congrArg (· || false) h.changed }, le_refl _, le_refl _⟩, rfl⟩
  | none =>
    obtain ⟨ss, hss, -, hget⟩ := Specializations.demand_of_find?_none hf
    obtain ⟨ss', hss', -, hget'⟩ := Specializations.demand_of_find?_none (hfind ▸ hf)
    rw [hss] at hx
    rw [hss'] at hy
    cases hx
    cases hy
    have hsize : (⟨τ.specs.size⟩ : SpecId) = ⟨σ.specs.size⟩ := by rw [h.size_eq]
    refine ⟨⟨{ h with specs := fun s => ?_, changed := congrArg (· || true) h.changed },
      le_refl _, le_refl _⟩, hsize⟩
    simp only [hget, hget', hsize]
    split
    · exact .some (sameSpec_fresh h.twins hk)
    · exact h.specs s

theorem spec?_agree (h : M.Pair σ τ) (s : SpecId) :
    M.states.Agree σ τ (Infer.spec? s) (Infer.spec? s) fun t u =>
      Option.Rel (M.ground.SameSpec M.ctx.methods M.methods t u) :=
  .get (.pure h (h.specs s))

theorem storedType_agree (h : M.Pair σ τ) (s : SpecId) :
    M.states.Agree σ τ (Infer.storedType s) (Infer.storedType s) M.ground.Same := by
  refine (spec?_agree h s).bind fun σ₁ τ₁ i i' h₁ hi => .pure h₁.pair ?_
  cases hi with
  | none => exact .never h₁.pair.twins
  | some hi => exact hi.returnType

/-- The same is learned of a specialization. -/
theorem modifySpec_agree (h : M.Pair σ τ) (s : SpecId) {f f' : Specialization → Specialization}
    {hf : ∀ i, (f i).key = i.key} {hf' : ∀ i, (f' i).key = i.key}
    (hff : ∀ i i', M.ground.SameSpec M.ctx.methods M.methods σ.types τ.types i i' →
      M.ground.SameSpec M.ctx.methods M.methods σ.types τ.types (f i) (f' i')) :
    M.states.Agree σ τ (Infer.modifySpec s f hf) (Infer.modifySpec s f' hf')
      fun _ _ _ _ => True := by
  refine .modified ⟨{ h with specs := fun s' => ?_ }, le_refl _, le_refl _⟩
  simp only [Specializations.get?_modify]
  split
  · have hs := h.specs s
    generalize σ.specs.get? s = i, τ.specs.get? s = i' at hs ⊢
    cases hs with
    | none => exact .none
    | some hi => exact .some (hff _ _ hi)
  · exact h.specs s'

theorem union_agree (h : M.Pair σ τ) {a b a' b' : TypeId}
    (ha : M.ground.Same σ.types τ.types a b) (hb : M.ground.Same σ.types τ.types a' b') :
    M.states.Agree σ τ (Infer.union a a') (Infer.union b b') M.ground.Same :=
  onTypes_agree h (Ground.union_alike h.twins ha hb)

end Mirror

end Multimethod
