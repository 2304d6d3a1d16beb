import Multimethod.Hierarchy.Ivar
import Multimethod.Hierarchy.Subtype
import Multimethod.Proofs.Type.Table
import Multimethod.Resolution

/-!
# What depends on the tree of classes only

Inference changes a hierarchy in nothing but the types of instance variables. `tree` forgets these;
subtyping, look-up of methods and resolution of calls are the same before and after. Subtyping and
look-up also stay the same when the table of types grows.
-/

namespace Multimethod

namespace Hierarchy

/-- The hierarchy without the types of instance variables. -/
def tree (h : Hierarchy) : Hierarchy := ⟨h.classes.map fun i => { i with ivars := ∅ }⟩

variable (h : Hierarchy)

@[simp] theorem size_tree : h.tree.size = h.size := by
  simp [tree, size, Catalog.size, Catalog.map]

theorem get?_tree (c : ClassId) :
    h.tree.get? c = (h.get? c).map fun i => { i with ivars := ∅ } := by
  simp [tree, get?, Catalog.get?, Catalog.map]

@[simp] theorem name_tree (c : ClassId) : h.tree.name c = h.name c := by
  simp [name, get?_tree, Function.comp_def]

@[simp] theorem superclass_tree (c : ClassId) : h.tree.superclass c = h.superclass c := by
  simp only [superclass, get?_tree]
  cases h.get? c <;> rfl

@[simp] theorem children_tree (c : ClassId) : h.tree.children c = h.children c := by
  simp [children, get?_tree, Function.comp_def]

@[simp] theorem find?_tree (n : Name) : h.tree.find? n = h.find? n := rfl

@[simp] theorem chain_tree (n : Nat) (c : ClassId) : h.tree.chain n c = h.chain n c := by
  induction n generalizing c with
  | zero => rfl
  | succ n ih => simp only [chain, superclass_tree, ih]

@[simp] theorem ancestors_tree (c : ClassId) : h.tree.ancestors c = h.ancestors c := by
  simp [ancestors]

@[simp] theorem isBelow_tree (c d : ClassId) : h.tree.isBelow c d = h.isBelow c d := by
  rw [Bool.eq_iff_iff, isBelow_iff, isBelow_iff, ancestors_tree]

@[simp] theorem subtree_tree (n : Nat) (c : ClassId) : h.tree.subtree n c = h.subtree n c := by
  induction n generalizing c with
  | zero => rfl
  | succ n ih => simp only [subtree, children_tree, funext ih]

@[simp] theorem descendants_tree (c : ClassId) : h.tree.descendants c = h.descendants c := by
  simp [descendants]

@[simp] theorem shapeBelow_tree (s s' : Shape) : h.tree.shapeBelow s s' = h.shapeBelow s s' := by
  cases s <;> cases s' <;> simp [shapeBelow]

@[simp] theorem isSubtype_tree (t : TypeTable) (a b : TypeId) :
    h.tree.isSubtype t a b = h.isSubtype t a b := by
  simp [isSubtype, memberBelow]

@[simp] theorem typeText_tree (t : TypeTable) (names : NameTable) (a : TypeId) :
    h.tree.typeText t names a = h.typeText t names a := by
  simp [typeText]

/-- Widening an instance variable leaves the tree alone. -/
theorem tree_modify_ivars (c : ClassId) (f : Map .name TypeId → Map .name TypeId) :
    (h.modify c fun i => { i with ivars := f i.ivars }).tree = h.tree := by
  simp only [tree, modify, Hierarchy.mk.injEq]
  apply Catalog.ext_entries
  simp only [Catalog.map, Catalog.modify]
  refine Array.ext (by simp) fun i h₁ h₂ => ?_
  simp only [Array.getElem_map, Array.getElem_modify]
  split <;> rfl

theorem ivarType_assign {c c' : ClassId} (hc : c.index < h.size)
    (n n' : Name) (a : TypeId) :
    (h.modify c fun i => { i with ivars := i.ivars.insert n a }).ivarType c' n' =
      if c' = c ∧ n' = n then some a else h.ivarType c' n' := by
  have hget : (h.modify c fun i => { i with ivars := i.ivars.insert n a }).get? c' =
      if c' = c then (h.get? c).map fun i => { i with ivars := i.ivars.insert n a }
      else h.get? c' := by
    simp only [modify, get?, Catalog.modify, Catalog.get?, Array.getElem?_modify]
    by_cases hs : c' = c
    · simp [hs]
    · rw [if_neg hs, if_neg fun h => hs (Handle.ext_index h.symm)]
  simp only [ivarType, ivars, hget]
  by_cases hcc : c' = c
  · subst hcc
    obtain ⟨i, hi⟩ : ∃ i, h.get? c' = some i := ⟨_, Array.getElem?_eq_getElem hc⟩
    simp only [hi, if_true, true_and, Option.map_some, Option.getD_some,
      Std.ExtTreeMap.getElem?_insert, Std.compare_eq_iff_eq]
    by_cases hn : n = n'
    · simp [hn]
    · rw [if_neg hn, if_neg fun h => hn h.symm]
  · simp [hcc]

theorem assignIvar_eq (h : Hierarchy) (c : ClassId) (n : Name) (a : TypeId) (t : TypeTable) :
    h.assignIvar c n a t =
      let p := TypeTable.union ((h.ivarType c n).getD .never) a t
      if p.1 = (h.ivarType c n).getD .never then ((false, h), p.2)
      else ((true, h.modify c fun i => { i with ivars := i.ivars.insert n p.1 }), p.2) := by
  show (let p := TypeTable.union ((h.ivarType c n).getD .never) a t
    (if p.1 = (h.ivarType c n).getD .never then pure (false, h)
      else pure (true, h.modify c fun i => { i with ivars := i.ivars.insert n p.1 }) :
        StateM TypeTable (Bool × Hierarchy)) p.2) = _
  dsimp only
  split <;> rfl

theorem snd_assignIvar (h : Hierarchy) (c : ClassId) (n : Name) (a : TypeId) (t : TypeTable) :
    (h.assignIvar c n a t).2 = (TypeTable.union ((h.ivarType c n).getD .never) a t).2 := by
  rw [assignIvar_eq]
  dsimp only
  split <;> rfl

theorem tree_assignIvar (h : Hierarchy) (c : ClassId) (n : Name) (a : TypeId) (t : TypeTable) :
    (h.assignIvar c n a t).1.2.tree = h.tree := by
  rw [assignIvar_eq]
  dsimp only
  split
  · rfl
  · exact h.tree_modify_ivars c (·.insert n _)

theorem size_assignIvar (h : Hierarchy) (c : ClassId) (n : Name) (a : TypeId) (t : TypeTable) :
    (h.assignIvar c n a t).1.2.size = h.size := by
  rw [← size_tree, tree_assignIvar, size_tree]

end Hierarchy

namespace MethodTable

variable (ms : MethodTable) (h : Hierarchy) (t : TypeTable) (names : NameTable)

@[simp] theorem lookupOrder_tree (s : Shape) : lookupOrder h.tree s = lookupOrder h s := by
  cases s <;> simp [lookupOrder]

@[simp] theorem candidates_tree (n : Name) (receiver : Option TypeId) :
    ms.candidates h.tree t n receiver = ms.candidates h t n receiver := by
  cases receiver <;> simp [candidates]

@[simp] theorem understands_tree (n : Name) (a : TypeId) :
    ms.understands h.tree t n a = ms.understands h t n a := by
  simp [understands]

@[simp] theorem paramText_tree (p : Param) (r : Option TypeId) :
    paramText h.tree t names p r = paramText h t names p r := by
  simp [paramText]

@[simp] theorem signatureOf_tree (m : Method) :
    signatureOf h.tree t names m = signatureOf h t names m := by
  simp only [signatureOf, Hierarchy.name_tree, funext fun p => funext fun r =>
    paramText_tree h t names p r]

@[simp] theorem signature_tree (m : MethodId) :
    ms.signature h.tree t names m = ms.signature h t names m := by
  simp only [signature, funext fun m => signatureOf_tree h t names m]

@[simp] theorem signatures_tree (n : Name) (receiver : Option TypeId) :
    ms.signatures h.tree t names n receiver = ms.signatures h t names n receiver := by
  simp only [signatures, funext fun r => candidates_tree ms h t n r,
    funext fun m => signature_tree ms h t names m]

end MethodTable

namespace Registry

/-- The tables without the types of instance variables. -/
def tree (g : Registry) : Registry := { g with hierarchy := g.hierarchy.tree }

variable (g : Registry)

@[simp] theorem split_tree (a : TypeId) : g.tree.split a = g.split a := by
  simp [split, tree]

@[simp] theorem restriction_tree : g.tree.restriction = g.restriction := rfl

@[simp] theorem isSubtype_tree : g.tree.isSubtype = g.isSubtype := by
  funext t a b
  simp [isSubtype, tree]

@[simp] theorem firstRejected_tree (m : MethodId) (receiver : Option TypeId) (i : Nat)
    (args : List TypeId) :
    g.tree.firstRejected m receiver i args = g.firstRejected m receiver i args := by
  induction args generalizing i with
  | nil => rfl
  | cons a as ih =>
    simp only [firstRejected, ih, restriction_tree, isSubtype_tree]

@[simp] theorem accepts_tree (m : MethodId) (receiver : Option TypeId) (args : List TypeId) :
    g.tree.accepts m receiver args = g.accepts m receiver args := by
  simp [accepts]

@[simp] theorem moreSpecific_tree (a b : MethodId) (receiver : Option TypeId) (i n : Nat)
    (narrower : Bool) :
    g.tree.moreSpecific a b receiver i n narrower = g.moreSpecific a b receiver i n narrower := by
  induction n generalizing i narrower with
  | zero => rfl
  | succ n ih =>
    simp only [moreSpecific, ih, restriction_tree, isSubtype_tree]

@[simp] theorem choose_tree (receiver : Option TypeId) (args : List TypeId)
    (best : Option MethodId) (ms : List MethodId) :
    g.tree.choose receiver args best ms = g.choose receiver args best ms := by
  induction ms generalizing best with
  | nil => rfl
  | cons m ms ih => cases best <;> simp [choose, ih]

@[simp] theorem pick_tree (n : Name) (receiver : Option TypeId) (args : List TypeId) :
    g.tree.pick n receiver args = g.pick n receiver args := by
  have h : g.tree.acceptsArity = g.acceptsArity := rfl
  have h' : g.tree.builtin = g.builtin := rfl
  simp only [pick, choose_tree, h, h']
  simp only [tree, MethodTable.candidates_tree]

@[simp] theorem failure_tree (n : Name) (receiver : Option TypeId) (combination args : List TypeId)
    (fitting : List MethodId) :
    g.tree.failure n receiver combination args fitting =
      g.failure n receiver combination args fitting := by
  have h (t : TypeTable) : g.tree.typeText t = g.typeText t := funext fun a => by
    simp [typeText, tree]
  simp only [failure, firstRejected_tree, h]
  simp only [tree, MethodTable.signatures_tree]

@[simp] theorem resolveOne_tree (n : Name) (args : List TypeId) (span : Span)
    (receiver : Option TypeId) (combination : List TypeId) :
    g.tree.resolveOne n args span receiver combination =
      g.resolveOne n args span receiver combination := by
  simp [resolveOne]

@[simp] theorem resolve_tree (n : Name) (receiver : Option TypeId) (args : List TypeId)
    (span : Span) : g.tree.resolve n receiver args span = g.resolve n receiver args span := by
  have h : g.tree.resolveOne n args span = g.resolveOne n args span :=
    funext fun r => funext fun c => resolveOne_tree g n args span r c
  simp only [resolve, split_tree, h]

@[simp] theorem resolveSend_tree (n : Name) (self : Option TypeId) (args : List TypeId)
    (span : Span) :
    g.tree.resolveSend n self args span = g.resolveSend n self args span := by
  have h (t : TypeTable) : g.tree.goesToSelf t n = g.goesToSelf t n := funext fun a => by
    simp only [goesToSelf, tree, MethodTable.understands_tree]
    rfl
  simp only [resolveSend, resolve_tree, h]

end Registry

end Multimethod
