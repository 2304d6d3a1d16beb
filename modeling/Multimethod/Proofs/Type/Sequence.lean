import Multimethod.Proofs.Type.Settles

/-!
# Sequences of computations on a growing table

Computations that may end in an error, and going through lists with computations.
-/

namespace List.Forall₂

variable {α β γ : Type} {R : α → β → Prop} {as : List α} {bs : List β}

theorem exists_of_mem_left (h : Forall₂ R as bs) {a : α} (ha : a ∈ as) : ∃ b ∈ bs, R a b := by
  induction h with
  | nil => cases ha
  | cons hr _ ih =>
    rcases List.mem_cons.1 ha with rfl | ha
    · exact ⟨_, .head _, hr⟩
    · obtain ⟨b, hb, hab⟩ := ih ha
      exact ⟨b, .tail _ hb, hab⟩

theorem exists_of_mem_right (h : Forall₂ R as bs) {b : β} (hb : b ∈ bs) : ∃ a ∈ as, R a b :=
  h.flip.exists_of_mem_left hb

theorem trans_of {P : γ → α → Prop} {Q : γ → β → Prop} {cs : List γ} (h : Forall₂ P cs as)
    (h' : Forall₂ R as bs) (hQ : ∀ c a b, P c a → R a b → Q c b) : Forall₂ Q cs bs := by
  induction h generalizing bs with
  | nil => cases h'; exact .nil
  | cons hp _ ih =>
    cases h' with
    | cons hr h' => exact .cons (hQ _ _ _ hp hr) (ih h')

end List.Forall₂

namespace Multimethod

namespace TypeTable

variable {α β ε : Type} {t : TypeTable}

/-- What holds of a value, and what of an error. -/
def Ends (P : α → TypeTable → Prop) (E : ε → TypeTable → Prop) : Except ε α → TypeTable → Prop
  | .ok a => P a
  | .error e => E e

namespace Settles

section

variable {x : ExceptT ε (StateM TypeTable) α} {P : α → TypeTable → Prop} {E : ε → TypeTable → Prop}

theorem post_ok (h : Settles t x.run (Ends P E)) {a : α} (hx : (x.run t).1 = .ok a) :
    P a (x.run t).2 := by
  have hpost := h.post
  rwa [hx] at hpost

theorem post_error (h : Settles t x.run (Ends P E)) {e : ε} (hx : (x.run t).1 = .error e) :
    E e (x.run t).2 := by
  have hpost := h.post
  rwa [hx] at hpost

end

/-- A computation that may end in an error, followed by another one. -/
theorem bindExcept {x : ExceptT ε (StateM TypeTable) α} {f : α → ExceptT ε (StateM TypeTable) β}
    {P : α → TypeTable → Prop} {E : ε → TypeTable → Prop} {Q : Except ε β → TypeTable → Prop}
    (h : Settles t x.run (Ends P E)) (hok : ∀ a u, u.WF → t ≤ u → P a u → Settles u (f a).run Q)
    (herr : ∀ e u, u.WF → t ≤ u → E e u → Q (.error e) u) : Settles t (x >>= f).run Q := by
  have : Settles t (x.run >>= ExceptT.bindCont f) Q := by
    refine h.bind fun r u hu hle hr => ?_
    cases r with
    | ok a => exact hok a u hu hle hr
    | error e => exact .pure hu (herr e u hu hle hr)
  exact this

/-- A computation that cannot fail, as one that may. -/
theorem lift {x : StateM TypeTable α} {P : α → TypeTable → Prop} {E : ε → TypeTable → Prop}
    (h : Settles t x P) : Settles t (x : ExceptT ε (StateM TypeTable) α).run (Ends P E) :=
  h.map (g := Except.ok) fun _ _ _ _ h => h

/-- Going through a list with a computation that cannot fail. -/
theorem mapM {f : α → StateM TypeTable β} {R : α → β → TypeTable → Prop}
    (hR : ∀ a b t u, t ≤ u → R a b t → R a b u) : ∀ {l : List α} {t : TypeTable}, t.WF →
    (∀ a ∈ l, ∀ u : TypeTable, u.WF → t ≤ u → Settles u (f a) (R a)) →
    Settles t (l.mapM f) fun bs u => List.Forall₂ (R · · u) l bs
  | [], t, H, _ => by
    rw [List.mapM_nil]
    exact .pure H .nil
  | a :: l, t, H, h => by
    rw [List.mapM_cons]
    refine (h a (.head _) t H (le_refl t)).bind fun b u hu hle hb => ?_
    have rest := mapM (R := R) hR (l := l) hu fun c hc v hv hle' =>
      h c (.tail _ hc) v hv (le_trans hle hle')
    exact rest.bind fun bs v hv hle' hbs => .pure hv (.cons (hR _ _ _ _ hle' hb) hbs)

/-- Going through a list: every element gives its result, or it ends with the first that fails. -/
theorem mapMExcept {f : α → ExceptT ε (StateM TypeTable) β} {R : α → β → TypeTable → Prop}
    {E : α → ε → TypeTable → Prop} (hR : ∀ a b t u, t ≤ u → R a b t → R a b u) :
    ∀ {l : List α} {t : TypeTable}, t.WF →
    (∀ a ∈ l, ∀ u : TypeTable, u.WF → t ≤ u → Settles u (f a).run (Ends (R a) (E a))) →
    Settles t (l.mapM f).run (Ends (fun bs u => List.Forall₂ (R · · u) l bs)
      fun e u => ∃ l₁ a l₂, l = l₁ ++ a :: l₂ ∧ (∀ c ∈ l₁, ∃ b, R c b u) ∧ E a e u)
  | [], t, H, _ => by
    rw [List.mapM_nil]
    exact .pure H .nil
  | a :: l, t, H, h => by
    rw [List.mapM_cons]
    refine (h a (.head _) t H (le_refl t)).bindExcept (fun b u hu hle hb => ?_)
      fun e u _ _ he => ⟨[], a, l, rfl, nofun, he⟩
    have rest := mapMExcept (R := R) (E := E) hR (l := l) hu fun c hc v hv hle' =>
      h c (.tail _ hc) v hv (le_trans hle hle')
    refine rest.bindExcept (fun bs v hv hle' hbs => ?_) fun e v _ hle' he => ?_
    · exact .pure hv (.cons (hR _ _ _ _ hle' hb) hbs)
    · obtain ⟨l₁, c, l₂, rfl, hl₁, he⟩ := he
      refine ⟨a :: l₁, c, l₂, rfl, fun d hd => ?_, he⟩
      rcases List.mem_cons.1 hd with rfl | hd
      · exact ⟨b, hR _ _ _ _ hle' hb⟩
      · exact hl₁ d hd

end Settles

end TypeTable

end Multimethod
