import Multimethod.Proofs.Resolution.Complaint

/-!
# Resolution on a growing table

Resolution of a call settles: a combination that picks a target picks it in every later table
(`Registry.pick_settles`), and the complaint about one that misses stays the same
(`Registry.failure_settles`).
-/

namespace Multimethod

open TypeTable

/-- The error is the complaint that a limit was reached. -/
def TypeError.IsDivergence (e : TypeError) : Prop :=
  ∃ name rounds, e.cause = .divergence name rounds

namespace Registry

variable {t u v : TypeTable} {g : Registry}

section
variable (H : t.WF) (D : g.Described t) {receiver : Option TypeId}
  (hr : ∀ a ∈ receiver, t.Has a) {args : List TypeId} (ha : ∀ a ∈ args, t.Has a)

include H D hr

theorem restriction_settles (m : MethodId) (i : Nat) :
    Settles t (g.restriction m i receiver) fun r u => ∀ a ∈ r, u.Has a :=
  (restriction_spec H D hr H (le_refl t) m i).mono fun _ _ _ _ h => h.2

include ha

/-- If no argument is rejected, each is below the restriction of its parameter, now and later. -/
theorem isSubtype_of_firstRejected {m : MethodId} {i : Nat} {t' : TypeTable}
    (h : g.firstRejected m receiver i args t = (none, t')) (hu : u.WF) (hle : t' ≤ u) {j : Nat}
    {a : TypeId} (hj : args[j]? = some a) :
    ∀ r ∈ (g.restriction m (i + j) receiver u).1, g.isSubtype u a r = true := by
  have hs := firstRejected_spec H D hr H (le_refl t) ha m i
  have hrejects := hs.post
  have htu := hs.le
  rw [h] at hrejects htu
  obtain ⟨hwithin, hfound⟩ := hrejects j a hj
  have hbound := (restriction_spec H D hr hu (le_trans htu hle) m (i + j)).post.1
  rw [hfound u hu hle] at hbound
  intro r hr'
  rw [Option.mem_def.1 hr'] at hbound
  exact (isSubtype_iff_within D hr H (le_trans htu hle) (ha a (List.mem_of_getElem? hj)) hbound).2
    hwithin

/-- `m` takes the arguments, now and later. -/
def Accepts (g : Registry) (t : TypeTable) (m : MethodId) (receiver : Option TypeId)
    (args : List TypeId) : Prop :=
  ∀ u : TypeTable, u.WF → t ≤ u → g.accepts m receiver args u = (true, u)

omit H D hr ha in
theorem Accepts.mono {m : MethodId} (h : g.Accepts t m receiver args) (hle : t ≤ u) :
    g.Accepts u m receiver args := fun v hv hle' => h v hv (le_trans hle hle')

omit H D hr ha in
theorem Accepts.isSubtype {m : MethodId} (h : g.Accepts t m receiver args) (hu : u.WF)
    (hle : t ≤ u) (D : g.Described u) (hr : ∀ a ∈ receiver, u.Has a) (ha : ∀ a ∈ args, u.Has a)
    {i : Nat} {a : TypeId} (hi : args[i]? = some a) :
    ∀ r ∈ (g.restriction m i receiver u).1, g.isSubtype u a r = true := by
  have hrun : g.firstRejected m receiver 0 args u = (none, u) := by
    have := h u hu hle
    simp only [accepts] at this
    obtain ⟨hnone, htable⟩ := Prod.mk.inj (this : ((g.firstRejected m receiver 0 args u).1.isNone,
      (g.firstRejected m receiver 0 args u).2) = _)
    exact Prod.ext (Option.isNone_iff_eq_none.1 hnone) htable
  have := isSubtype_of_firstRejected hu D hr ha hrun hu (le_refl u) hi
  rwa [Nat.zero_add] at this

theorem accepts_settles (m : MethodId) :
    Settles t (g.accepts m receiver args) fun r u => r = true → g.Accepts u m receiver args :=
  (accepts_spec H D hr H (le_refl t) ha m).settled.mono fun _ _ _ _ h htrue u hu hle => by
    rw [h.2 u hu hle, htrue]

theorem choose_settles (best : Option MethodId) (ms : List MethodId) :
    Settles t (g.choose receiver args best ms) fun r u =>
      ∀ m ∈ r, best = some m ∨ m ∈ ms ∧ g.Accepts u m receiver args := by
  induction ms generalizing t best with
  | nil => exact .pure H fun m hm => .inl hm
  | cons m ms ih =>
    simp only [choose]
    refine (accepts_settles H D hr ha m).bind fun r u hu hle hacc => ?_
    have Du := D.mono hle
    have hru := fun a h => (hr a h).mono hle
    have hau := fun a h => (ha a h).mono hle
    have skip (best : Option MethodId) :=
      (ih hu Du hru hau best).mono (R := fun r u =>
        ∀ k ∈ r, best = some k ∨ k ∈ m :: ms ∧ g.Accepts u k receiver args)
        fun r v _ _ h k hk => (h k hk).imp_right fun h => ⟨.tail _ h.1, h.2⟩
    cases r with
    | false => exact skip best
    | true =>
      have take := (ih hu Du hru hau (some m)).mono (R := fun r u =>
          ∀ k ∈ r, best = some k ∨ k ∈ m :: ms ∧ g.Accepts u k receiver args)
        fun r v _ hv h k hk => by
          rcases h k hk with h | h
          · cases h
            exact .inr ⟨.head _, (hacc rfl).mono hv⟩
          · exact .inr ⟨.tail _ h.1, h.2⟩
      cases best with
      | none => exact take
      | some b =>
        refine (moreSpecific_spec hu Du hru hu (le_refl u) m b 0 args.length false).bind
          fun q v hv hle' _ => ?_
        have Dv := Du.mono hle'
        have hrv := fun a h => (hru a h).mono hle'
        have hav := fun a h => (hau a h).mono hle'
        cases q with
        | false =>
          exact (ih hv Dv hrv hav (some b)).mono
            fun r w _ _ h k hk => (h k hk).imp_right fun h => ⟨.tail _ h.1, h.2⟩
        | true =>
          refine (ih hv Dv hrv hav (some m)).mono fun r w _ hw h k hk => ?_
          rcases h k hk with h | h
          · cases h
            exact .inr ⟨.head _, (hacc rfl).mono (le_trans hle' hw)⟩
          · exact .inr ⟨.tail _ h.1, h.2⟩

/-- A target that a combination may go to: a candidate that takes the arguments, or one of the two
ways to make an object of the class that is the receiver. -/
def Suits (g : Registry) (t : TypeTable) (k : Name) (receiver : Option TypeId)
    (args : List TypeId) : Target → Prop
  | .method m => m ∈ g.methods.candidates g.hierarchy t k receiver ∧
      g.acceptsArity m args.length = true ∧ g.Accepts t m receiver args
  | .allocate c | .new c => ∃ r, receiver = some r ∧ t.shape r = .classObject c

/-- The combination goes to `target`, now and later. -/
def Picks (g : Registry) (t : TypeTable) (k : Name) (receiver : Option TypeId)
    (args : List TypeId) (target : Target) : Prop :=
  ∀ u : TypeTable, u.WF → t ≤ u → g.pick k receiver args u = (.ok target, u)

/-- The combination has no target, now and later. -/
def Misses (g : Registry) (t : TypeTable) (k : Name) (receiver : Option TypeId)
    (args : List TypeId) : Prop :=
  ∀ u : TypeTable, u.WF → t ≤ u → ∃ fitting, g.pick k receiver args u = (.error fitting, u)

omit H D hr ha in
theorem Picks.mono {k : Name} {target : Target} (h : g.Picks t k receiver args target)
    (hle : t ≤ u) : g.Picks u k receiver args target :=
  fun v hv hle' => h v hv (le_trans hle hle')

omit H D hr ha in
theorem Misses.mono {k : Name} (h : g.Misses t k receiver args) (hle : t ≤ u) :
    g.Misses u k receiver args := fun v hv hle' => h v hv (le_trans hle hle')

omit D hr ha in
theorem Picks.unique {k : Name} {target target' : Target} (h : g.Picks t k receiver args target)
    (h' : g.Picks t k receiver args target') : target = target' := by
  have := (h t H (le_refl t)).symm.trans (h' t H (le_refl t))
  exact Except.ok.inj (congrArg Prod.fst this)

omit D hr ha in
theorem Picks.not_misses {k : Name} {target : Target} (h : g.Picks t k receiver args target) :
    ¬ g.Misses t k receiver args := fun h' => by
  obtain ⟨f, hf⟩ := h' t H (le_refl t)
  have := (h t H (le_refl t)).symm.trans hf
  nomatch congrArg Prod.fst this

omit H D ha in
theorem builtin_mono (hle : t ≤ u) (k : Name) :
    g.builtin u k receiver args = g.builtin t k receiver args := by
  cases receiver with
  | none => rfl
  | some r => simp only [builtin, Option.map_some, (hr r rfl).shape_eq hle]

omit H D hr ha in
theorem suits_of_builtin {k : Name} {target : Target}
    (h : g.builtin t k receiver args = some target) : g.Suits t k receiver args target := by
  simp only [builtin] at h
  cases receiver with
  | none => simp at h
  | some r =>
    simp only [Option.map_some] at h
    split at h
    · rename_i c hc
      have hc' : t.shape r = .classObject c := by simpa using hc
      split at h
      · cases h; exact ⟨r, rfl, hc'⟩
      · split at h
        · cases h; exact ⟨r, rfl, hc'⟩
        · cases h
    · cases h

/-- A combination has a target that suits it, or misses; which one stays so. -/
theorem pick_settles (k : Name) :
    Settles t (g.pick k receiver args) fun r u => match r with
      | .ok target => g.Picks u k receiver args target ∧ g.Suits u k receiver args target
      | .error _ => g.Misses u k receiver args := by
  set cs := g.methods.candidates g.hierarchy t k receiver with hcs
  set fitting := cs.filter (g.acceptsArity · args.length) with hfit
  have hs : Settles t (g.pick k receiver args) fun r u => match r with
      | .ok target => g.Suits u k receiver args target
      | .error _ => True := by
    unfold pick
    refine .get ?_ fun u hu hle => by
      simp only [g.methods.candidates_mono g.hierarchy hr hle]
    simp only [← hcs, ← hfit]
    refine (choose_settles H D hr ha none fitting).bind fun r u hu hle hm => ?_
    cases r with
    | some m =>
      have hcu := g.methods.candidates_mono g.hierarchy hr hle k
      rcases hm m rfl with h | ⟨h, hacc⟩
      · cases h
      · rw [hfit, List.mem_filter] at h
        exact .pure hu ⟨by rw [hcu]; exact h.1, h.2, hacc⟩
    | none =>
      have hru := fun a h => (hr a h).mono hle
      refine .get ?_ fun v hv hle' => by
        simp only [builtin_mono hru hle']
      split
      · rename_i target htarget
        refine .pure hu ?_
        split at htarget
        · exact suits_of_builtin htarget
        · cases htarget
      · exact .pure hu trivial
  refine ⟨hs.wf, hs.le, ?_, hs.again⟩
  have hp := hs.post
  have hagain := hs.again
  revert hp hagain
  cases (g.pick k receiver args t).1 with
  | ok target => exact fun hp hagain => ⟨hagain, hp⟩
  | error f => exact fun hp hagain u hu hle => ⟨f, hagain u hu hle⟩

theorem Picks.suits {k : Name} {target : Target} (h : g.Picks t k receiver args target) :
    g.Suits t k receiver args target := by
  have hpost := (pick_settles H D hr ha k).post
  rw [h t H (le_refl t)] at hpost
  exact hpost.2

omit ha in
/-- The complaint about a combination stays the same. -/
theorem failure_settles (k : Name) {combination : List TypeId}
    (hc : ∀ a ∈ combination, t.Has a) (ha : ∀ a ∈ args, t.Has a) (fitting : List MethodId) :
    Settles t (g.failure k receiver combination args fitting) fun e _ =>
      ∀ name n, e ≠ .divergence name n := by
  refine (failure_spec H D hr H (le_refl t) hc ha k fitting).mono fun e _ _ _ ⟨r, _, he⟩ name n => ?_
  rw [he]
  cases r <;> nofun

end

end Registry

end Multimethod
