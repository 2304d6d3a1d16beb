import Multimethod.Proofs.Hierarchy.Subtype
import Multimethod.Proofs.Resolution.Reachable

/-!
# The most specific candidate

Resolution goes through the candidates once and keeps the best one so far (`Choice`). Being at least
as specific is a preorder, so nothing that was passed over on the way is strictly more specific than
the candidate that is kept at the end (`Choice.maximal`, `Registry.pick_mostSpecific`).
-/

namespace Multimethod

open TypeTable

theorem Hierarchy.MembersBelow.trans {h : Hierarchy} {t : TypeTable} {ms ns ks : List TypeId}
    (R : h.Rooted) (hmn : h.MembersBelow t ms ns) (hnk : h.MembersBelow t ns ks) :
    h.MembersBelow t ms ks := by
  intro m hm
  obtain ⟨n, hn, hmn⟩ := hmn m hm
  obtain ⟨k, hk, hnk⟩ := hnk n hn
  exact ⟨k, hk, R.memberBelow_trans hmn hnk⟩

/-! ## Keeping the best -/

/-- Go through a list and keep the best so far: of what has `P`, the first, until something that has
`P` and is better, by `R`, takes its place. -/
inductive Choice {α : Type} (P : α → Prop) (R : α → α → Prop) :
    Option α → List α → Option α → Prop where
  | done {b : Option α} : Choice P R b [] b
  | skip {b r : Option α} {m : α} {ms : List α} (hm : ¬ P m) (h : Choice P R b ms r) :
    Choice P R b (m :: ms) r
  | first {r : Option α} {m : α} {ms : List α} (hm : P m) (h : Choice P R (some m) ms r) :
    Choice P R none (m :: ms) r
  | replace {r : Option α} {b m : α} {ms : List α} (hm : P m) (hmb : R m b)
    (h : Choice P R (some m) ms r) : Choice P R (some b) (m :: ms) r
  | keep {r : Option α} {b m : α} {ms : List α} (hm : P m) (hmb : ¬ R m b)
    (h : Choice P R (some b) ms r) : Choice P R (some b) (m :: ms) r

namespace Choice

variable {α : Type} {P : α → Prop} {R N : α → α → Prop} {b d e : α} {best r : Option α} {ms : List α}

/-- What is kept in the end was there at the start or has `P`. -/
theorem mem (h : Choice P R best ms (some d)) : best = some d ∨ d ∈ ms ∧ P d := by
  generalize hr : some d = r at h
  induction h with
  | done => exact .inl rfl
  | skip _ _ ih => exact (ih hr).imp_right fun h => ⟨.tail _ h.1, h.2⟩
  | keep _ _ _ ih => exact (ih hr).imp_right fun h => ⟨.tail _ h.1, h.2⟩
  | first hm _ ih | replace hm _ _ ih =>
    rcases ih hr with h | h
    · cases hr.trans h.symm
      exact .inr ⟨.head _, hm⟩
    · exact .inr ⟨.tail _ h.1, h.2⟩

/-- Something is kept, if there was something at the start or something has `P`. -/
theorem isSome_iff (h : Choice P R best ms r) : r.isSome ↔ best.isSome ∨ ∃ m ∈ ms, P m := by
  induction h with
  | done => simp
  | skip hm _ ih => simp [ih, hm]
  | first hm _ ih => simp [ih, hm]
  | replace _ _ _ ih | keep _ _ _ ih => simp [ih]

/-- What is kept is determined. -/
theorem unique (h : Choice P R best ms r) {r' : Option α} (h' : Choice P R best ms r') : r = r' := by
  induction h with
  | done => cases h'; rfl
  | skip hm _ ih =>
    cases h' with
    | skip _ h' => exact ih h'
    | first hm' | replace hm' | keep hm' => exact absurd hm' hm
  | first hm _ ih =>
    cases h' with
    | skip hm' => exact absurd hm hm'
    | first _ h' => exact ih h'
  | replace hm hmb _ ih =>
    cases h' with
    | skip hm' => exact absurd hm hm'
    | replace _ _ h' => exact ih h'
    | keep _ hmb' => exact absurd hmb hmb'
  | keep hm hmb _ ih =>
    cases h' with
    | skip hm' => exact absurd hm hm'
    | replace _ hmb' => exact absurd hmb' hmb
    | keep _ _ h' => exact ih h'

/-- What is kept in the end is at least as good as what was there at the start. -/
theorem le (hrefl : ∀ a, N a a) (htrans : ∀ {a b c}, N a b → N b c → N a c)
    (hR : ∀ {a b}, R a b → N a b) (h : Choice P R (some b) ms (some d)) : N d b := by
  generalize hbest : some b = best at h
  generalize hr : some d = r at h
  induction h generalizing b with
  | done =>
    cases hbest.trans hr.symm
    exact hrefl d
  | skip _ _ ih | keep _ _ _ ih => exact ih hbest hr
  | first => cases hbest
  | replace _ hmb _ ih =>
    cases hbest
    exact htrans (ih rfl hr) (hR hmb)

/-- Nothing that has `P` is strictly better than what is kept in the end: what replaced it, or was
not replaced by it, is at least as good as it, and what is kept at least as good as that. -/
theorem maximal (hrefl : ∀ a, N a a) (htrans : ∀ {a b c}, N a b → N b c → N a c)
    (hR : ∀ {a b}, R a b → N a b) (hstrict : ∀ {a b}, N a b → ¬ N b a → R a b)
    (h : Choice P R best ms (some d)) (he : e ∈ ms) (hP : P e) (hed : N e d) : N d e := by
  generalize hr : some d = r at h
  induction h with
  | done => cases he
  | skip hm _ ih =>
    rcases List.mem_cons.1 he with rfl | he
    · exact absurd hP hm
    · exact ih he hr
  | first _ h ih | replace _ _ h ih =>
    rcases List.mem_cons.1 he with rfl | he
    · exact (hr ▸ h).le hrefl htrans hR
    · exact ih he hr
  | @keep r b m ms _ hmb h ih =>
    rcases List.mem_cons.1 he with rfl | he
    · have hdb : N d b := (hr ▸ h).le hrefl htrans hR
      have hbe : N b e := by
        by_contra hbe
        exact hmb (hstrict (htrans hed hdb) hbe)
      exact htrans hdb hbe
    · exact ih he hr

end Choice

namespace Registry

variable {g : Registry} {t u v : TypeTable} {receiver : Option TypeId} {args : List TypeId}
  {m d e : MethodId} {k : Name}

/-! ## What is chosen -/

/-- Each argument is within the restriction of its parameter. -/
def Takes (g : Registry) (t : TypeTable) (receiver : Option TypeId) (args : List TypeId)
    (m : MethodId) : Prop :=
  ∀ i a, args[i]? = some a → g.Within t receiver m i a

/-- None of the restrictions of `e` in the first `n` parameters is wider than that of `d`. -/
def NoWider (g : Registry) (t : TypeTable) (receiver : Option TypeId) (n : Nat)
    (e d : MethodId) : Prop :=
  ∀ i < n, g.Narrows t receiver e d i

/-- None is wider and one differs. -/
def Better (g : Registry) (t : TypeTable) (receiver : Option TypeId) (n : Nat)
    (e d : MethodId) : Prop :=
  g.NoWider t receiver n e d ∧ ∃ i < n, g.bound t receiver e i ≠ g.bound t receiver d i

theorem NoWider.refl (d : MethodId) (n : Nat) : g.NoWider t receiver n d d :=
  fun i _ => .refl d i

theorem Narrows.trans (R : g.hierarchy.Rooted) {c : MethodId} {i : Nat}
    (hed : g.Narrows t receiver e d i) (hdc : g.Narrows t receiver d c i) :
    g.Narrows t receiver e c i := by
  intro ks hks
  obtain ⟨ns, hns, hnk⟩ := hdc ks hks
  obtain ⟨ms, hms, hmn⟩ := hed ns hns
  exact ⟨ms, hms, hmn.trans R hnk⟩

theorem NoWider.trans (R : g.hierarchy.Rooted) {c : MethodId} {n : Nat}
    (hed : g.NoWider t receiver n e d) (hdc : g.NoWider t receiver n d c) :
    g.NoWider t receiver n e c := fun i hi => (hed i hi).trans R (hdc i hi)

/-- What is no wider and not the other way round differs. -/
theorem NoWider.better {n : Nat} (h : g.NoWider t receiver n e d)
    (hnot : ¬ g.NoWider t receiver n d e) : g.Better t receiver n e d := by
  refine ⟨h, ?_⟩
  by_contra hsame
  push Not at hsame
  exact hnot fun i hi => .of_eq (hsame i hi).symm

/-- The choice among some methods. -/
abbrev Chooses (g : Registry) (t : TypeTable) (receiver : Option TypeId) (args : List TypeId) :
    Option MethodId → List MethodId → Option MethodId → Prop :=
  Choice (g.Takes t receiver args) (g.Better t receiver args.length)

section
variable (H : t.WF) (D : g.Described t) (hr : ∀ a ∈ receiver, t.Has a) (ha : ∀ a ∈ args, t.Has a)
include H D hr ha

theorem choose_spec (hu : u.WF) (hle : t ≤ u) (best : Option MethodId) (ms : List MethodId) :
    Settles u (g.choose receiver args best ms) fun r _ => g.Chooses t receiver args best ms r := by
  induction ms generalizing u best with
  | nil => exact .pure hu .done
  | cons m ms ih =>
    simp only [choose]
    refine (accepts_spec H D hr hu hle ha m).bind fun r v hv hle₁ hacc => ?_
    have hlev := le_trans hle hle₁
    cases r with
    | false =>
      have hm : ¬ g.Takes t receiver args m := fun h => Bool.false_ne_true (hacc.2 h)
      exact (ih hv hlev best).mono fun _ _ _ _ h => .skip hm h
    | true =>
      have hm : g.Takes t receiver args m := hacc.1 rfl
      cases best with
      | none => exact (ih hv hlev (some m)).mono fun _ _ _ _ h => .first hm h
      | some b =>
        refine (moreSpecific_spec H D hr hv hlev m b 0 args.length false).bind
          fun q w hw hle₂ hq => ?_
        have hiff : q = true ↔ g.Better t receiver args.length m b := by
          rw [hq, MoreSpecific, Better, NoWider]
          simp only [Nat.zero_add, Bool.false_eq_true, false_or]
        have hlew := le_trans hlev hle₂
        cases q with
        | false =>
          exact (ih hw hlew (some b)).mono
            fun _ _ _ _ h => .keep hm (fun h => Bool.false_ne_true (hiff.2 h)) h
        | true => exact (ih hw hlew (some m)).mono fun _ _ _ _ h => .replace hm (hiff.1 rfl) h

/-- The candidates of the right arity. -/
def fitting (g : Registry) (t : TypeTable) (k : Name) (receiver : Option TypeId) (n : Nat) :
    List MethodId :=
  (g.methods.candidates g.hierarchy t k receiver).filter (g.acceptsArity · n)

/-- What a combination goes to, a method having been chosen or not. -/
def outcome (g : Registry) (t : TypeTable) (k : Name) (receiver : Option TypeId)
    (args : List TypeId) : Option MethodId → Except (List MethodId) Target
  | some m => .ok (.method m)
  | none =>
    match if (g.methods.candidates g.hierarchy t k receiver).isEmpty then
      g.builtin t k receiver args else none with
    | some target => .ok target
    | none => .error (g.fitting t k receiver args.length)

/-- What a combination comes to is settled by the table of its types, whatever has been described
since. -/
theorem pick_spec_later (hu : u.WF) (hle : t ≤ u) (k : Name) :
    Settles u (g.pick k receiver args) fun r _ => ∃ best,
      g.Chooses t receiver args none (g.fitting t k receiver args.length) best ∧
        r = g.outcome t k receiver args best := by
  unfold pick
  refine .get ?_ fun v hv hle' => by
    simp only [g.methods.candidates_mono g.hierarchy (fun a h => (hr a h).mono hle) hle']
  rw [g.methods.candidates_mono g.hierarchy hr hle]
  refine (choose_spec H D hr ha hu hle none (g.fitting t k receiver args.length)).bind
    fun best v hv hle' hbest => ?_
  have hlev := le_trans hle hle'
  cases best with
  | some m => exact .pure hv ⟨some m, hbest, rfl⟩
  | none =>
    refine .get ?_ fun w hw hle'' => by
      simp only [builtin_mono (fun a h => (hr a h).mono hlev) hle'']
    rw [builtin_mono hr hlev]
    split
    · rename_i target htarget
      exact .pure hv ⟨none, hbest, by rw [outcome, htarget]⟩
    · rename_i hnone
      exact .pure hv ⟨none, hbest, by rw [outcome, hnone]; rfl⟩

theorem pick_spec (k : Name) :
    Settles t (g.pick k receiver args) fun r _ => ∃ best,
      g.Chooses t receiver args none (g.fitting t k receiver args.length) best ∧
        r = g.outcome t k receiver args best := pick_spec_later H D hr ha H (le_refl t) k

end

theorem mem_fitting {n : Nat} : m ∈ g.fitting t k receiver n ↔
    m ∈ g.methods.candidates g.hierarchy t k receiver ∧ g.acceptsArity m n = true := List.mem_filter

theorem builtin_ne_method : g.builtin t k receiver args ≠ some (.method m) := by
  unfold builtin
  split
  · split
    · nofun
    · split <;> nofun
  · nofun

theorem outcome_eq_method_iff {best : Option MethodId} :
    g.outcome t k receiver args best = .ok (.method d) ↔ best = some d := by
  cases best with
  | some m => simp [outcome]
  | none =>
    simp only [outcome, reduceCtorEq, iff_false]
    split
    · rename_i target htarget
      rintro ⟨⟩
      split at htarget
      · exact builtin_ne_method htarget
      · cases htarget
    · nofun

section
variable (H : t.WF) (D : g.Described t) (hr : ∀ a ∈ receiver, t.Has a) (ha : ∀ a ∈ args, t.Has a)
include H D hr ha

/-- A method is picked just if it is what is chosen among the candidates of the right arity. -/
theorem pick_eq_method_iff (k : Name) : (g.pick k receiver args t).1 = .ok (.method d) ↔
    g.Chooses t receiver args none (g.fitting t k receiver args.length) (some d) := by
  obtain ⟨best, hbest, heq⟩ := (pick_spec H D hr ha k).post
  rw [heq, outcome_eq_method_iff]
  constructor
  · rintro rfl
    exact hbest
  · exact hbest.unique

end

/-! ## Applicable methods and the more specific of two -/

/-- The method accepts the number of the arguments, and each is a subtype of the restriction of its
parameter, if there is one. -/
def Applicable (g : Registry) (t : TypeTable) (receiver : Option TypeId) (args : List TypeId)
    (m : MethodId) : Prop :=
  g.acceptsArity m args.length = true ∧ ∀ i a, args[i]? = some a →
    ∀ r u, g.restriction m i receiver t = (some r, u) → g.isSubtype u a r = true

instance : Decidable (g.Applicable t receiver args m) :=
  decidable_of_iff (g.acceptsArity m args.length = true ∧ ∀ i (hi : i < args.length),
    ∀ r ∈ (g.restriction m i receiver t).1,
      g.isSubtype (g.restriction m i receiver t).2 args[i] r = true) <| by
  refine and_congr_right fun _ => ⟨fun h i a hi r u hrun => ?_, fun h i hi r hrun => ?_⟩
  · obtain ⟨hlt, rfl⟩ := List.getElem?_eq_some_iff.1 hi
    have := h i hlt
    rw [hrun] at this
    exact this r rfl
  · exact h i _ (List.getElem?_eq_getElem hi) r _ (Prod.ext hrun rfl)

/-- In each of `n` parameters `d` is unrestricted, or both are restricted and the restriction of `e`
is a subtype of that of `d`. -/
def AtLeastAsSpecific (g : Registry) (t : TypeTable) (receiver : Option TypeId) (n : Nat)
    (e d : MethodId) : Prop :=
  ∀ i < n, ∀ r u, g.restriction d i receiver t = (some r, u) →
    ∃ q v, g.restriction e i receiver u = (some q, v) ∧ g.isSubtype v q r = true

instance {n : Nat} : Decidable (g.AtLeastAsSpecific t receiver n e d) :=
  decidable_of_iff (∀ i < n, ∀ r ∈ (g.restriction d i receiver t).1,
    ∃ q ∈ (g.restriction e i receiver (g.restriction d i receiver t).2).1,
      g.isSubtype (g.restriction e i receiver (g.restriction d i receiver t).2).2 q r = true) <| by
  refine forall₂_congr fun i _ => ⟨fun h r u hrun => ?_, fun h r hrun => ?_⟩
  · rw [hrun] at h
    obtain ⟨q, hq, hsub⟩ := h r rfl
    exact ⟨q, _, Prod.ext hq rfl, hsub⟩
  · obtain ⟨q, v, hq, hsub⟩ := h r _ (Prod.ext hrun rfl)
    rw [hq]
    exact ⟨q, rfl, hsub⟩

section
variable (H : t.WF) (D : g.Described t) (hr : ∀ a ∈ receiver, t.Has a)
include H D hr

/-- An argument is within the restriction of a parameter just if it is a subtype of the type that this
is described by. -/
theorem within_iff {i : Nat} {a : TypeId} (hat : t.Has a) : g.Within t receiver m i a ↔
    ∀ r u, g.restriction m i receiver t = (some r, u) → g.isSubtype u a r = true := by
  have hs := restriction_spec H D hr H (le_refl t) m i
  constructor
  · intro h r u hrun
    have hbound := hs.post.1
    have hle := hs.le
    rw [hrun] at hbound hle
    exact (isSubtype_iff_within D hr H hle hat hbound).2 h
  · intro h ns hns
    obtain ⟨r, hrun, rfl⟩ := Option.map_eq_some_iff.1 (hs.post.1.trans hns)
    have hbound := hs.post.1
    rw [hrun] at hbound
    exact (isSubtype_iff_within D hr H hs.le hat hbound).1 (h r _ (Prod.ext hrun rfl)) _ hns

theorem applicable_iff (ha : ∀ a ∈ args, t.Has a) : g.Applicable t receiver args m ↔
    g.acceptsArity m args.length = true ∧ g.Takes t receiver args m := by
  refine and_congr_right fun _ => forall₃_congr fun i a hi => ?_
  exact (within_iff H D hr (ha a (List.mem_of_getElem? hi))).symm

theorem atLeastAsSpecific_iff {n : Nat} :
    g.AtLeastAsSpecific t receiver n e d ↔ g.NoWider t receiver n e d := by
  refine forall₂_congr fun i _ => ?_
  have hs := restriction_spec H D hr H (le_refl t) d i
  have hs' := restriction_spec H D hr hs.wf hs.le e i
  have hle := le_trans hs.le hs'.le
  -- The restriction of `d` is the same type in the table of that of `e`.
  have hbound {r : TypeId} (hrun : (g.restriction d i receiver t).1 = some r) :
      some ((g.restriction e i receiver (g.restriction d i receiver t).2).2.members r) =
        g.bound t receiver d i := by
    rw [← hs.post.1, hrun, Option.map_some, (hs.post.2 r hrun).members_eq hs'.le]
  constructor
  · intro h ns hns
    obtain ⟨r, hrun, -⟩ := Option.map_eq_some_iff.1 (hs.post.1.trans hns)
    obtain ⟨q, v, hrun', hsub⟩ := h r _ (Prod.ext hrun rfl)
    have he := hs'.post.1
    have hd := hbound hrun
    rw [hrun'] at he hd hle
    exact (isSubtype_iff_narrows H D hr hle he hd).1 hsub ns hns
  · intro h r u hrun
    have hd := hbound (congrArg Prod.fst hrun)
    obtain ⟨ms, hms, -⟩ := h _ hd.symm
    obtain ⟨q, hrun', -⟩ := Option.map_eq_some_iff.1 (hs'.post.1.trans hms)
    have he := hs'.post.1
    rw [hrun'] at he
    rw [hrun] at he hd hle hrun'
    exact ⟨q, _, Prod.ext hrun' rfl, (isSubtype_iff_narrows H D hr hle he hd).2 h⟩

end

/-- A method is picked just if some candidate is applicable, and then an applicable candidate that
no other is strictly more specific than. -/
theorem pick_mostSpecific (hg : g.Reachable t) (k : Name) (hr : ∀ a ∈ receiver, t.Has a)
    (ha : ∀ a ∈ args, t.Has a) :
    let candidates := g.methods.candidates g.hierarchy t k receiver
    ((∃ d, (g.pick k receiver args t).1 = .ok (.method d)) ↔
      ∃ m ∈ candidates, g.Applicable t receiver args m) ∧
    ∀ d, (g.pick k receiver args t).1 = .ok (.method d) →
      d ∈ candidates ∧ g.Applicable t receiver args d ∧
      ∀ e ∈ candidates, g.Applicable t receiver args e →
        ¬ (g.AtLeastAsSpecific t receiver args.length e d ∧
          ¬ g.AtLeastAsSpecific t receiver args.length d e) := by
  have S := hg.sound
  have H := S.types
  have D := S.restrictions
  have mem (m) : m ∈ g.fitting t k receiver args.length ∧ g.Takes t receiver args m ↔
      m ∈ g.methods.candidates g.hierarchy t k receiver ∧ g.Applicable t receiver args m := by
    rw [mem_fitting, applicable_iff H D hr ha, and_assoc]
  simp only [pick_eq_method_iff H D hr ha, atLeastAsSpecific_iff H D hr]
  refine ⟨⟨?_, ?_⟩, fun d hd => ?_⟩
  · rintro ⟨d, hd⟩
    obtain ⟨⟨⟩⟩ | hd := hd.mem
    exact ⟨d, (mem d).1 hd⟩
  · rintro ⟨m, hm⟩
    obtain ⟨hm, htakes⟩ := (mem m).2 hm
    obtain ⟨best, hbest, -⟩ := (pick_spec H D hr ha k).post
    obtain ⟨d, rfl⟩ := Option.isSome_iff_exists.1 (hbest.isSome_iff.2 (.inr ⟨m, hm, htakes⟩))
    exact ⟨d, hbest⟩
  · obtain ⟨⟨⟩⟩ | hmem := hd.mem
    obtain ⟨hcandidate, happlicable⟩ := (mem d).1 hmem
    refine ⟨hcandidate, happlicable, fun e he happ hstrict => hstrict.2 ?_⟩
    obtain ⟨hfit, htakes⟩ := (mem e).2 ⟨he, happ⟩
    exact hd.maximal (N := g.NoWider t receiver args.length) (fun d => .refl d _)
      (fun h h' => h.trans S.rooted h') (fun h => h.1) (fun h hnot => h.better hnot) hfit htakes
      hstrict.1

/-- A method on any object, and one on those of the class of the receiver. -/
def objectOrSelf : Registry × TypeTable :=
  family [(some (.instances ⟨9⟩), [.named ⟨4⟩]), (some (.instances ⟨9⟩), [.self])]

/-- An object of the class goes to the second, though both are applicable. -/
theorem pick_mostSpecific_self :
    let g := objectOrSelf.1
    let t := objectOrSelf.2
    g.Reachable t ∧ g.methods.candidates g.hierarchy t ⟨11⟩ (some ⟨14⟩) = [⟨0⟩, ⟨1⟩] ∧
      (g.pick ⟨11⟩ (some ⟨14⟩) [⟨14⟩] t).1 = .ok (.method ⟨1⟩) ∧
      g.Applicable t (some ⟨14⟩) [⟨14⟩] ⟨1⟩ :=
  have hpick : (objectOrSelf.1.pick ⟨11⟩ (some ⟨14⟩) [⟨14⟩] objectOrSelf.2).1 =
    .ok (.method ⟨1⟩) := by decide +kernel
  have hr : ∀ a ∈ some (⟨14⟩ : TypeId), objectOrSelf.2.Has a := by decide +kernel
  have ha : ∀ a ∈ [(⟨14⟩ : TypeId)], objectOrSelf.2.Has a := by decide +kernel
  have hmost := pick_mostSpecific (family_reachable _) ⟨11⟩ hr ha
  ⟨family_reachable _, by decide +kernel, hpick, (hmost.2 ⟨1⟩ hpick).2.1⟩

end Registry

end Multimethod
