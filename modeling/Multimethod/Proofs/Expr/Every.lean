import Mathlib.Tactic
import Multimethod.Expr.Term

/-!
# Parts of terms

`Term.Every` says something of a term and of all its parts. A term of an arena has only parts that
are terms of the arena themselves, each at its own position (`Arena.every_terms`).
-/

namespace Multimethod

namespace Term

mutual

/-- The term and all its parts have a property. -/
def Every (P : Term → Prop) : Term → Prop
  | .nil s => P (.nil s)
  | .bool s b => P (.bool s b)
  | .int s n => P (.int s n)
  | .float s x => P (.float s x)
  | .self s => P (.self s)
  | .var s n => P (.var s n)
  | .assign s n v => P (.assign s n v) ∧ v.Every P
  | .ivar s n => P (.ivar s n)
  | .setIvar s n v => P (.setIvar s n v) ∧ v.Every P
  | .const s n => P (.const s n)
  | .call s r m as => P (.call s r m as) ∧ r.Every P ∧ EveryOf P as
  | .send s m as => P (.send s m as) ∧ EveryOf P as
  | .ifThen s t y => P (.ifThen s t y) ∧ t.Every P ∧ y.Every P
  | .ifElse s t y n => P (.ifElse s t y n) ∧ t.Every P ∧ y.Every P ∧ n.Every P
  | .loop s t b => P (.loop s t b) ∧ t.Every P ∧ b.Every P
  | .andAlso s l r => P (.andAlso s l r) ∧ l.Every P ∧ r.Every P
  | .orElse s l r => P (.orElse s l r) ∧ l.Every P ∧ r.Every P
  | .ret s => P (.ret s)
  | .retValue s v => P (.retValue s v) ∧ v.Every P
  | .block s ts => P (.block s ts) ∧ EveryOf P ts
  | .primitive s op as => P (.primitive s op as) ∧ EveryOf P as

/-- All of some terms and their parts have a property. -/
def EveryOf (P : Term → Prop) : List Term → Prop
  | [] => True
  | t :: ts => t.Every P ∧ EveryOf P ts

end

variable {P Q R : Term → Prop}

mutual

/-- Deciding whether the term and all its parts have a property. -/
def decidableEvery (P : Term → Prop) [DecidablePred P] : (t : Term) → Decidable (t.Every P)
  | .nil s => inferInstanceAs (Decidable (P (.nil s)))
  | .bool s b => inferInstanceAs (Decidable (P (.bool s b)))
  | .int s n => inferInstanceAs (Decidable (P (.int s n)))
  | .float s x => inferInstanceAs (Decidable (P (.float s x)))
  | .self s => inferInstanceAs (Decidable (P (.self s)))
  | .var s n => inferInstanceAs (Decidable (P (.var s n)))
  | .assign s n v => @instDecidableAnd (P (.assign s n v)) _ _ (decidableEvery P v)
  | .ivar s n => inferInstanceAs (Decidable (P (.ivar s n)))
  | .setIvar s n v => @instDecidableAnd (P (.setIvar s n v)) _ _ (decidableEvery P v)
  | .const s n => inferInstanceAs (Decidable (P (.const s n)))
  | .call s r m as => @instDecidableAnd (P (.call s r m as)) _ _
      (@instDecidableAnd _ _ (decidableEvery P r) (decidableEveryOf P as))
  | .send s m as => @instDecidableAnd (P (.send s m as)) _ _ (decidableEveryOf P as)
  | .ifThen s t y => @instDecidableAnd (P (.ifThen s t y)) _ _
      (@instDecidableAnd _ _ (decidableEvery P t) (decidableEvery P y))
  | .ifElse s t y n => @instDecidableAnd (P (.ifElse s t y n)) _ _
      (@instDecidableAnd _ _ (decidableEvery P t)
        (@instDecidableAnd _ _ (decidableEvery P y) (decidableEvery P n)))
  | .loop s t b => @instDecidableAnd (P (.loop s t b)) _ _
      (@instDecidableAnd _ _ (decidableEvery P t) (decidableEvery P b))
  | .andAlso s l r => @instDecidableAnd (P (.andAlso s l r)) _ _
      (@instDecidableAnd _ _ (decidableEvery P l) (decidableEvery P r))
  | .orElse s l r => @instDecidableAnd (P (.orElse s l r)) _ _
      (@instDecidableAnd _ _ (decidableEvery P l) (decidableEvery P r))
  | .ret s => inferInstanceAs (Decidable (P (.ret s)))
  | .retValue s v => @instDecidableAnd (P (.retValue s v)) _ _ (decidableEvery P v)
  | .block s ts => @instDecidableAnd (P (.block s ts)) _ _ (decidableEveryOf P ts)
  | .primitive s op as => @instDecidableAnd (P (.primitive s op as)) _ _ (decidableEveryOf P as)

/-- Deciding whether all of some terms and their parts have a property. -/
def decidableEveryOf (P : Term → Prop) [DecidablePred P] : (ts : List Term) → Decidable (EveryOf P ts)
  | [] => inferInstanceAs (Decidable True)
  | t :: ts => @instDecidableAnd _ _ (decidableEvery P t) (decidableEveryOf P ts)

end

instance (P : Term → Prop) [DecidablePred P] (t : Term) : Decidable (t.Every P) :=
  decidableEvery P t

theorem everyOf_iff {ts : List Term} : EveryOf P ts ↔ ∀ t ∈ ts, t.Every P := by
  induction ts with
  | nil => simp [EveryOf]
  | cons t ts ih => simp [EveryOf, ih]

theorem Every.self {t : Term} (h : t.Every P) : P t := by
  cases t <;> simp only [Every] at h <;> first | exact h | exact h.1

mutual

theorem Every.imp₂ (hPQ : ∀ t, P t → Q t → R t) : ∀ {t : Term}, t.Every P → t.Every Q → t.Every R
  | .nil _, h, h' | .bool _ _, h, h' | .int _ _, h, h' | .float _ _, h, h' | .self _, h, h'
  | .var _ _, h, h' | .ivar _ _, h, h' | .const _ _, h, h' | .ret _, h, h' => by
    simp only [Every] at h h' ⊢
    exact hPQ _ h h'
  | .assign _ _ _, h, h' | .setIvar _ _ _, h, h' | .retValue _ _, h, h' => by
    simp only [Every] at h h' ⊢
    exact ⟨hPQ _ h.1 h'.1, h.2.imp₂ hPQ h'.2⟩
  | .call _ _ _ _, h, h' => by
    simp only [Every] at h h' ⊢
    exact ⟨hPQ _ h.1 h'.1, h.2.1.imp₂ hPQ h'.2.1, EveryOf.imp₂ hPQ h.2.2 h'.2.2⟩
  | .send _ _ _, h, h' | .block _ _, h, h' | .primitive _ _ _, h, h' => by
    simp only [Every] at h h' ⊢
    exact ⟨hPQ _ h.1 h'.1, EveryOf.imp₂ hPQ h.2 h'.2⟩
  | .ifThen _ _ _, h, h' | .loop _ _ _, h, h' | .andAlso _ _ _, h, h' | .orElse _ _ _, h, h' => by
    simp only [Every] at h h' ⊢
    exact ⟨hPQ _ h.1 h'.1, h.2.1.imp₂ hPQ h'.2.1, h.2.2.imp₂ hPQ h'.2.2⟩
  | .ifElse _ _ _ _, h, h' => by
    simp only [Every] at h h' ⊢
    exact ⟨hPQ _ h.1 h'.1, h.2.1.imp₂ hPQ h'.2.1, h.2.2.1.imp₂ hPQ h'.2.2.1,
      h.2.2.2.imp₂ hPQ h'.2.2.2⟩

theorem EveryOf.imp₂ (hPQ : ∀ t, P t → Q t → R t) :
    ∀ {ts : List Term}, EveryOf P ts → EveryOf Q ts → EveryOf R ts
  | [], _, _ => by simp [EveryOf]
  | _ :: _, h, h' => by
    simp only [EveryOf] at h h' ⊢
    exact ⟨h.1.imp₂ hPQ h'.1, EveryOf.imp₂ hPQ h.2 h'.2⟩

end

theorem Every.imp (hPQ : ∀ t, P t → Q t) {t : Term} (h : t.Every P) : t.Every Q :=
  Every.imp₂ (fun u hu _ => hPQ u hu) h h

theorem Every.and {t : Term} (h : t.Every P) (h' : t.Every Q) : t.Every fun u => P u ∧ Q u :=
  Every.imp₂ (fun _ => And.intro) h h'

/-- The name that a term reads, binds or widens. -/
def bound : Term → Option Name
  | .var _ n | .assign _ n _ | .setIvar _ n _ => some n
  | _ => none

/-- The method that a term calls. -/
def called : Term → Option Name
  | .call _ _ m _ | .send _ m _ => some m
  | _ => none

end Term

namespace Arena

/-- A term that is `nil` or stands at its own position of a table. -/
def Stands (ts : Array Term) (t : Term) : Prop := (∃ s, t = .nil s) ∨ ts[t.id.index]? = some t

theorem Stands.push {ts : Array Term} {t u : Term} (h : Stands ts t) : Stands (ts.push u) t := by
  refine h.imp_right fun h => ?_
  obtain ⟨hlt, h⟩ := Array.getElem?_eq_some_iff.1 h
  rw [Array.getElem?_push, if_neg (by omega), Array.getElem?_eq_getElem hlt, h]

theorem every_termAt {P : Term → Prop} {ts : Array Term} (h : ∀ t ∈ ts, t.Every P)
    (hnil : ∀ s, P (.nil s)) (id : ExprId) : (termAt ts id).Every P := by
  rw [termAt, Array.getD_eq_getD_getElem?]
  cases hid : ts[id.index]? with
  | none => simpa [Term.Every] using hnil _
  | some t => exact h t (Array.mem_of_getElem? hid)

theorem every_nodeTerm {P : Term → Prop} {site : Site} {child : ExprId → Term}
    {list : Range → List Term} (hc : ∀ e, (child e).Every P) (hl : ∀ r, Term.EveryOf P (list r))
    {n : Node} (h : P (n.term site child list)) : (n.term site child list).Every P := by
  cases n with
  | call r m as => cases r <;> simp only [Node.term, Term.Every] at h ⊢ <;> simp [h, hc, hl]
  | cond t y n => cases n <;> simp only [Node.term, Term.Every] at h ⊢ <;> simp [h, hc]
  | ret v => cases v <;> simp only [Node.term, Term.Every] at h ⊢ <;> simp [h, hc]
  | _ =>
    simp only [Node.term, Term.Every] at h ⊢
    simp [h, hc, hl]

theorem site_nodeTerm {site : Site} {child : ExprId → Term} {list : Range → List Term}
    (n : Node) : (n.term site child list).site = site := by
  cases n with
  | call r _ _ => cases r <;> rfl
  | cond _ _ n => cases n <;> rfl
  | ret v => cases v <;> rfl
  | _ => rfl

/-- A term of an arena is the tree of its node, whose parts are the terms that stand before it. -/
theorem exists_termAt {a : Arena} {e : ExprId} {x : Expr} (h : a.exprs[e.index]? = some x) :
    ∃ ts, termAt a.terms e = x.node.term ⟨e, x.span⟩ (termAt ts)
        (fun r => (a.list r).map (termAt ts)) ∧
      ∀ d : ExprId, d.index < e.index → termAt ts d = termAt a.terms d := by
  set step : Array Term → Expr → Array Term := fun ts e => ts.push (e.node.term
    ⟨⟨ts.size⟩, e.span⟩ (termAt ts) fun r => (a.list r).map (termAt ts)) with hstep
  -- What stands in the table stays there.
  have keeps (es : List Expr) (ts : Array Term) {j : Nat} (hj : j < ts.size) :
      (es.foldl step ts)[j]? = ts[j]? := by
    induction es generalizing ts with
    | nil => rfl
    | cons y es ih =>
      rw [List.foldl_cons, ih _ (by rw [hstep, Array.size_push]; omega), hstep, Array.getElem?_push,
        if_neg (Nat.ne_of_lt hj)]
  have at_ (es : List Expr) (ts : Array Term) (i : Nat) (hi : es[i]? = some x) :
      ∃ ts' : Array Term, (es.foldl step ts)[ts.size + i]? = some (x.node.term
          ⟨⟨ts.size + i⟩, x.span⟩ (termAt ts') fun r => (a.list r).map (termAt ts')) ∧
        ∀ j < ts.size + i, ts'[j]? = (es.foldl step ts)[j]? := by
    induction es generalizing ts i with
    | nil => simp at hi
    | cons y es ih =>
      rw [List.foldl_cons]
      cases i with
      | zero =>
        cases hi
        refine ⟨ts, ?_, fun j hj => ?_⟩
        · rw [keeps _ _ (by rw [hstep, Array.size_push]; omega), hstep]
          simp
        · rw [keeps _ _ (by rw [hstep, Array.size_push]; omega), hstep, Array.getElem?_push,
            if_neg (by omega)]
      | succ i =>
        have := ih (step ts y) i hi
        rw [hstep, Array.size_push, Nat.add_assoc, Nat.add_comm 1] at this
        exact this
  rw [← Array.getElem?_toList] at h
  obtain ⟨ts, hget, hbefore⟩ := at_ a.exprs.toList #[] e.index h
  rw [Array.size_empty, Nat.zero_add, Array.foldl_toList] at hget hbefore
  refine ⟨ts, ?_, fun d hd => ?_⟩
  · rw [termAt, Array.getD_eq_getD_getElem?]
    show (a.exprs.foldl step #[])[e.index]?.getD _ = _
    rw [hget]
    rfl
  · rw [termAt, termAt, Array.getD_eq_getD_getElem?, Array.getD_eq_getD_getElem?, hbefore _ hd]
    rfl

/-- Parts of terms of an arena are terms of the arena. -/
theorem every_terms (a : Arena) : ∀ t ∈ a.terms, t.Every (Stands a.terms) := by
  rw [terms, ← Array.foldl_toList]
  suffices h : ∀ (es : List Expr) (ts : Array Term), (∀ t ∈ ts, t.Every (Stands ts)) →
      ∀ t ∈ es.foldl (fun ts e => ts.push (e.node.term ⟨⟨ts.size⟩, e.span⟩ (termAt ts)
        fun r => (a.list r).map (termAt ts))) ts, t.Every (Stands
          (es.foldl (fun ts e => ts.push (e.node.term ⟨⟨ts.size⟩, e.span⟩ (termAt ts)
            fun r => (a.list r).map (termAt ts))) ts)) from h _ _ (by simp)
  intro es
  induction es with
  | nil => exact fun _ h => h
  | cons e es ih =>
    intro ts h
    refine ih _ fun t ht => ?_
    have old {u : Term} (hu : u.Every (Stands ts)) (v : Term) : u.Every (Stands (ts.push v)) :=
      hu.imp fun _ h => h.push
    have at_ (v : Term) (d : ExprId) : (termAt ts d).Every (Stands (ts.push v)) :=
      old (every_termAt h (fun _ => .inl ⟨_, rfl⟩) d) v
    rcases Array.mem_push.1 ht with ht | rfl
    · exact old (h t ht) _
    · refine every_nodeTerm (at_ _) (fun r => Term.everyOf_iff.2 fun u hu => ?_) (.inr ?_)
      · obtain ⟨d, -, rfl⟩ := List.mem_map.1 hu
        exact at_ _ d
      · simp [Term.id, site_nodeTerm]

/-- What is true of all terms of an arena is true of all their parts. -/
theorem every_of_terms {P : Term → Prop} {a : Arena} (h : ∀ t ∈ a.terms, P t)
    (hnil : ∀ s, P (.nil s)) (id : ExprId) : (termAt a.terms id).Every P := by
  refine every_termAt (fun t ht => (a.every_terms t ht).imp fun u hu => ?_) hnil id
  rcases hu with ⟨s, rfl⟩ | hu
  · exact hnil s
  · exact h u (Array.mem_of_getElem? hu)

end Arena

end Multimethod
