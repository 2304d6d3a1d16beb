import Multimethod.Proofs.Order.Methods

/-!
# Resolution with counterparts

Two method tables have the same methods of each name in the same order (`Ground.Paired`). So a call
finds counterparts as candidates, in the same order, and as the receiver and the arguments of a
combination are types of the common table, it picks counterparts (`Ground.resolve_alike`).
-/

namespace Multimethod

open TypeTable

/-- Both methods have the name `n`, and stand at the same place among the methods of this name. -/
def Counterparts (ms ms' : MethodTable) (n : Name) (m m' : MethodId) : Prop :=
  ∃ i : Nat, (ms.idsOf n)[i]? = some m ∧ (ms'.idsOf n)[i]? = some m'

namespace Counterparts

variable {ms ms' : MethodTable} {n k : Name} {m m' m'' : MethodId}

theorem symm (h : Counterparts ms ms' n m m') : Counterparts ms' ms n m' m :=
  h.imp fun _ ⟨hm, hm'⟩ => ⟨hm', hm⟩

theorem mem (h : Counterparts ms ms' n m m') : m ∈ ms.idsOf n := by
  obtain ⟨i, hi, -⟩ := h
  exact List.mem_of_getElem? hi

theorem eq_name (h : Counterparts ms ms' n m m') (h' : Counterparts ms ms' k m m'') : n = k := by
  obtain ⟨md, hmd, rfl⟩ := MethodTable.mem_idsOf.1 h.mem
  obtain ⟨md', hmd', rfl⟩ := MethodTable.mem_idsOf.1 h'.mem
  cases hmd.symm.trans hmd'
  rfl

/-- A method has one counterpart. -/
theorem right_unique (h : Counterparts ms ms' n m m') (h' : Counterparts ms ms' k m m'') :
    m' = m'' := by
  obtain rfl := h.eq_name h'
  obtain ⟨i, hi, hi'⟩ := h
  obtain ⟨j, hj, hj'⟩ := h'
  have hnodup : (ms.idsOf n).Nodup :=
    (ms.pairwise_idsOf n).imp fun h => by
      rintro rfl
      exact Nat.lt_irrefl _ h
  obtain ⟨hlt, -⟩ := List.getElem?_eq_some_iff.1 hi
  obtain rfl := (List.getElem?_inj hlt hnodup).1 (hi.trans hj.symm)
  exact Option.some.inj (hi'.symm.trans hj')

theorem left_unique {m₁ m₂ : MethodId} (h : Counterparts ms ms' n m₁ m')
    (h' : Counterparts ms ms' k m₂ m') : m₁ = m₂ := h.symm.right_unique h'.symm

/-- Lists of counterparts have counterparts at the same places only. -/
theorem mem_iff {l l' : List MethodId}
    (hl : List.Forall₂ (fun m m' => ∃ n, Counterparts ms ms' n m m') l l')
    (h : Counterparts ms ms' k m m') : m ∈ l ↔ m' ∈ l' := by
  constructor
  · intro hm
    obtain ⟨b, hb, n, hmb⟩ := hl.exists_of_mem_left hm
    rwa [h.right_unique hmb]
  · intro hm
    obtain ⟨a, ha, n, ham⟩ := hl.exists_of_mem_right hm
    rwa [h.left_unique ham]

end Counterparts

namespace Ground

variable {G : Ground} {t u t' u' : TypeTable} {ms ms' : MethodTable} {n : Name} {m m' : MethodId}
  {h : Hierarchy} {receiver : Option TypeId}

variable (G) in
/-- The two method tables have the same methods of each name, in the same order. -/
structure Paired (t u : TypeTable) (ms ms' : MethodTable) : Prop where
  left : ms.Listed
  right : ms'.Listed
  named : ∀ n, G.SameNamed t u ms ms' n

namespace Paired

variable (P : G.Paired t u ms ms')
include P

theorem mono (hl : t ≤ t') (hr : u ≤ u') : G.Paired t' u' ms ms' :=
  ⟨P.left, P.right, fun n => (P.named n).mono hl hr⟩

/-- Counterparts are the same method. -/
theorem same (h : Counterparts ms ms' n m m') : ∃ md md', ms.get? m = some md ∧
    ms'.get? m' = some md' ∧ md.definition.name = n ∧ G.SameMethod t u md md' := by
  obtain ⟨i, hi, hi'⟩ := h
  obtain ⟨md₀, hmd₀, hname⟩ := MethodTable.mem_idsOf.1 (List.mem_of_getElem? hi)
  obtain ⟨hlt, rfl⟩ := List.getElem?_eq_some_iff.1 hi
  obtain ⟨hlt', rfl⟩ := List.getElem?_eq_some_iff.1 hi'
  obtain ⟨md, md', hmd, hmd', hsame⟩ := (P.named n).get hlt hlt'
  cases hmd₀.symm.trans hmd
  exact ⟨_, md', hmd, hmd', hname, hsame⟩

theorem idsOf (n : Name) : List.Forall₂ (Counterparts ms ms' n) (ms.idsOf n) (ms'.idsOf n) := by
  refine List.forall₂_iff_get.2 ⟨(P.named n).length_eq, fun i hi hi' => ⟨i, ?_, ?_⟩⟩
  · exact List.getElem?_eq_getElem hi
  · exact List.getElem?_eq_getElem hi'

theorem overloads (n : Name) (o : MethodOwner) :
    List.Forall₂ (Counterparts ms ms' n) (ms.overloads n o) (ms'.overloads n o) := by
  rw [P.left n o, P.right n o]
  refine List.rel_filter (fun m m' hm => ?_) (P.idsOf n)
  obtain ⟨md, md', hmd, hmd', -, hsame⟩ := P.same hm
  simp [hmd, hmd', hsame.owner]

/-- In the order of registration, counterparts stay at the same places. -/
theorem sorted {l l' : List MethodId} (hl : List.Forall₂ (Counterparts ms ms' n) l l') :
    List.Forall₂ (Counterparts ms ms' n) (Handle.sorted l) (Handle.sorted l') := by
  have heq (ms : MethodTable) {l : List MethodId} (hmem : ∀ m ∈ l, m ∈ ms.idsOf n) :
      Handle.sorted l = (ms.idsOf n).filter (· ∈ l) :=
    Handle.eq_of_mem_iff (Handle.pairwise_sorted l) ((ms.pairwise_idsOf n).filter _) fun m => by
      simpa using hmem m
  rw [heq ms fun m hm => ?_, heq ms' fun m hm => ?_]
  · have hsome : List.Forall₂ (fun m m' => ∃ n, Counterparts ms ms' n m m') l l' :=
      hl.imp fun _ _ hm => ⟨n, hm⟩
    exact List.rel_filter (fun m m' hm => by simpa using hm.mem_iff hsome) (P.idsOf n)
  · obtain ⟨a, -, ham⟩ := hl.exists_of_mem_right hm
    exact ham.symm.mem
  · obtain ⟨b, -, hmb⟩ := hl.exists_of_mem_left hm
    exact hmb.mem

/-! ## Candidates and signatures -/

section
variable (H : G.Twins t u) (hr : ∀ a ∈ receiver, G.Atom a)
include H hr

theorem candidates : List.Forall₂ (Counterparts ms ms' n) (ms.candidates h t n receiver)
    (ms'.candidates h u n receiver) := by
  cases receiver with
  | none => exact P.overloads n .free
  | some a =>
    simp only [MethodTable.candidates, H.shape_eq (hr a rfl)]
    exact List.rel_flatMap (List.forall₂_same.2 fun o _ => (rfl : o = o))
      fun o _ ho => ho ▸ P.overloads n o

theorem candidates_isEmpty :
    (ms.candidates h t n receiver).isEmpty = (ms'.candidates h u n receiver).isEmpty := by
  rw [Bool.eq_iff_iff, List.isEmpty_iff_length_eq_zero, List.isEmpty_iff_length_eq_zero,
    (P.candidates H hr).length_eq]

end

section
variable (H : G.Twins t u)
include H

theorem understands {a b : TypeId} (hab : G.Same t u a b) :
    ms.understands h t n a = ms'.understands h u n b := by
  simp only [MethodTable.understands, ← hab.members]
  rw [Bool.eq_iff_iff]
  simp only [List.any_eq_true]
  refine exists_congr fun m => and_congr_right fun hm => ?_
  rw [P.candidates_isEmpty H fun c hc => by cases hc; exact hab.atoms m hm]

theorem signature (names : NameTable) (hm : Counterparts ms ms' n m m') :
    ms.signature h t names m = ms'.signature h u names m' := by
  obtain ⟨md, md', hmd, hmd', -, hsame⟩ := P.same hm
  simp only [MethodTable.signature, hmd, hmd', Option.map_some, hsame.signatureOf_eq h names H]

theorem signatures (names : NameTable) (hr : ∀ a ∈ receiver, G.Atom a) :
    ms.signatures h t names n receiver = ms'.signatures h u names n receiver := by
  have hmembers : ∀ a ∈ receiver, t.members a = [a] ∧ u.members a = [a] := fun a ha =>
    ⟨H.members_left (hr a ha), H.members_right (hr a ha)⟩
  have hcandidates := P.candidates (n := n) (h := h) H hr
  have hmap {l l' : List MethodId} (hl : List.Forall₂ (Counterparts ms ms' n) l l') :
      (Handle.sorted l).map (ms.signature h t names) =
        (Handle.sorted l').map (ms'.signature h u names) := by
    rw [← List.forall₂_eq_eq_eq]
    exact List.rel_map (fun _ _ hm => P.signature H names hm) (P.sorted hl)
  cases receiver with
  | none => simpa [MethodTable.signatures] using hmap hcandidates
  | some a => simpa [MethodTable.signatures, hmembers a rfl] using hmap hcandidates

end

end Paired

/-- A parameter's restriction for a receiver. -/
theorem SameMethod.restriction_alike {md md' : Method} (h : G.SameMethod t u md md')
    (H : G.Twins t u) (hr : ∀ a ∈ receiver, G.Atom a) (i : Nat) :
    G.Alike t u (md.restriction i receiver) (md'.restriction i receiver)
      fun t u => Option.Rel (G.Same t u) := by
  unfold Method.restriction
  have hd := h.declared i
  generalize md.declared i = a, md'.declared i = b at hd ⊢
  cases hd with
  | none => exact .pure H .none
  | some hab =>
    have hatom : G.Atom (receiver.getD .object) := by
      cases receiver with
      | none => exact atom_object
      | some a => exact hr a rfl
    exact (forReceiver_alike H hab hatom).map fun _ _ _ _ _ _ _ h => .some h

/-! ## Picking a target -/

variable (G) in
/-- The targets are counterparts, or the same way to make an object of a known class. -/
def SameTarget (ms ms' : MethodTable) : Target → Target → Prop
  | .method m, .method m' => ∃ n, Counterparts ms ms' n m m'
  | .allocate c, .allocate c' | .new c, .new c' => c' = c ∧ c.index < G.classes
  | _, _ => False

variable (G) in
/-- The same target, or candidates of the right arity that are counterparts. -/
def SamePick (ms ms' : MethodTable) (n : Name) :
    Except (List MethodId) Target → Except (List MethodId) Target → Prop
  | .ok target, .ok target' => G.SameTarget ms ms' target target'
  | .error fitting, .error fitting' => List.Forall₂ (Counterparts ms ms' n) fitting fitting'
  | _, _ => False

section
variable {g : Registry} (P : G.Paired t u g.methods ms') (H : G.Twins t u)
  (hr : ∀ a ∈ receiver, G.Atom a) {args : List TypeId} (ha : ∀ a ∈ args, G.Atom a)

include P

theorem acceptsArity_eq (hm : Counterparts g.methods ms' n m m') (k : Nat) :
    g.acceptsArity m k = { g with methods := ms' }.acceptsArity m' k := by
  obtain ⟨md, md', hmd, hmd', -, hsame⟩ := P.same hm
  simp only [Registry.acceptsArity, hmd, hmd', Option.any_some, hsame.definition]

include H hr

theorem restriction_alike (hm : Counterparts g.methods ms' n m m') (i : Nat) :
    G.Alike t u (g.restriction m i receiver)
      ({ g with methods := ms' }.restriction m' i receiver) fun t u => Option.Rel (G.Same t u) := by
  obtain ⟨md, md', hmd, hmd', -, hsame⟩ := P.same hm
  simp only [Registry.restriction, hmd, hmd']
  exact hsame.restriction_alike H hr i

include ha

theorem firstRejected_alike (hm : Counterparts g.methods ms' n m m') (i : Nat) :
    G.Alike t u (g.firstRejected m receiver i args)
      ({ g with methods := ms' }.firstRejected m' receiver i args) fun t u =>
        Option.Rel fun p q => p.1 = q.1 ∧ G.Same t u p.2 q.2 := by
  induction args generalizing t u i with
  | nil => exact .pure H .none
  | cons a as ih =>
    simp only [Registry.firstRejected]
    refine (restriction_alike P H hr hm i).bind fun t₁ u₁ r r' H₁ hl hl' hrr => ?_
    have next := ih (P.mono hl hl') H₁ (fun b hb => ha b (.tail _ hb)) (i + 1)
    cases hrr with
    | none => exact next
    | @some r r' hrr =>
      have hsub := isSubtype_eq g.hierarchy H₁ (.atom H₁ (ha a (.head _))) hrr
      exact .get (.ite (Bool.eq_iff_iff.1 hsub) (fun _ => next)
        fun _ => .pure H₁ (.some ⟨rfl, hrr⟩))

theorem accepts_alike (hm : Counterparts g.methods ms' n m m') :
    G.Alike t u (g.accepts m receiver args) ({ g with methods := ms' }.accepts m' receiver args)
      fun _ _ b b' => b = b' :=
  (firstRejected_alike P H hr ha hm 0).bind fun _ _ r r' H' _ _ h =>
    .pure H' (by cases h <;> rfl)

omit ha in
theorem moreSpecific_alike {k : MethodId} {k' : MethodId} (hm : Counterparts g.methods ms' n m m')
    (hk : Counterparts g.methods ms' n k k') (i j : Nat) (narrower : Bool) :
    G.Alike t u (g.moreSpecific m k receiver i j narrower)
      ({ g with methods := ms' }.moreSpecific m' k' receiver i j narrower)
      fun _ _ b b' => b = b' := by
  induction j generalizing t u i narrower with
  | zero => exact .pure H rfl
  | succ j ih =>
    simp only [Registry.moreSpecific]
    refine (restriction_alike P H hr hm i).bind fun t₁ u₁ a b H₁ hl hl' hab => ?_
    refine (restriction_alike (P.mono hl hl') H₁ hr hk i).bind fun t₂ u₂ c d H₂ hl₂ hl₂' hcd => ?_
    have next := ih (P.mono (le_trans hl hl₂) (le_trans hl' hl₂')) H₂ (i + 1)
    cases hab with
    | none =>
      cases hcd with
      | none => exact next narrower
      | some => exact .pure H₂ rfl
    | @some a b hab =>
      cases hcd with
      | none => exact next true
      | @some c d hcd =>
        have hab := hab.mono hl₂ hl₂'
        have hne : decide (a ≠ c) = decide (b ≠ d) := by simp only [ne_eq, hab.eq_iff H₂ hcd]
        exact .get (.ite (Bool.eq_iff_iff.1 (isSubtype_eq g.hierarchy H₂ hab hcd))
          (fun _ => hne ▸ next _) fun _ => .pure H₂ rfl)

theorem choose_alike {l l' : List MethodId} (hl : List.Forall₂ (Counterparts g.methods ms' n) l l')
    {best best' : Option MethodId} (hb : Option.Rel (Counterparts g.methods ms' n) best best') :
    G.Alike t u (g.choose receiver args best l)
      ({ g with methods := ms' }.choose receiver args best' l') fun _ _ =>
        Option.Rel (Counterparts g.methods ms' n) := by
  induction hl generalizing t u best best' with
  | nil => exact .pure H hb
  | @cons m m' l l' hm _ ih =>
    simp only [Registry.choose]
    refine (accepts_alike P H hr ha hm).bind fun t₁ u₁ r r' H₁ hle hle' hrr => ?_
    cases hrr
    have P₁ := P.mono hle hle'
    cases r with
    | false => exact ih P₁ H₁ hb
    | true =>
      cases hb with
      | none => exact ih P₁ H₁ (.some hm)
      | some hb =>
        refine (moreSpecific_alike P₁ H₁ hr hm hb 0 args.length false).bind
          fun t₂ u₂ q q' H₂ hle₂ hle₂' hq => ?_
        cases hq
        cases q with
        | false => exact ih (P₁.mono hle₂ hle₂') H₂ (.some hb)
        | true => exact ih (P₁.mono hle₂ hle₂') H₂ (.some hm)

omit P ha in
theorem builtin_eq (n : Name) :
    g.builtin t n receiver args = { g with methods := ms' }.builtin u n receiver args := by
  cases receiver with
  | none => rfl
  | some a => simp only [Registry.builtin, Option.map_some, H.shape_eq (hr a rfl)]

omit P ha in
theorem sameTarget_builtin {target : Target} (h : g.builtin t n receiver args = some target) :
    G.SameTarget ms ms' target target := by
  simp only [Registry.builtin] at h
  cases receiver with
  | none => cases h
  | some a =>
    have hatom := hr a rfl
    simp only [Option.map_some, H.shape_left hatom] at h
    cases hs : G.table.shape a with
    | classObject c =>
      have hlt := hatom.lt (.inr hs)
      simp only [hs] at h
      split at h
      · cases h
        exact ⟨rfl, hlt⟩
      · split at h
        · cases h
          exact ⟨rfl, hlt⟩
        · cases h
    | _ => simp [hs] at h

/-- A combination picks the same target, or has the same candidates of the right arity. -/
theorem pick_alike (n : Name) :
    G.Alike t u (g.pick n receiver args) ({ g with methods := ms' }.pick n receiver args)
      fun _ _ => G.SamePick g.methods ms' n := by
  unfold Registry.pick
  refine .get ?_
  have hcandidates := P.candidates (n := n) (h := g.hierarchy) H hr
  have hfitting : List.Forall₂ (Counterparts g.methods ms' n)
      ((g.methods.candidates g.hierarchy t n receiver).filter (g.acceptsArity · args.length))
      ((ms'.candidates g.hierarchy u n receiver).filter
        ({ g with methods := ms' }.acceptsArity · args.length)) :=
    List.rel_filter (fun m m' hm => by simp only [acceptsArity_eq P hm]) hcandidates
  refine (choose_alike P H hr ha hfitting .none).bind fun t₁ u₁ r r' H₁ _ _ hrr => ?_
  cases hrr with
  | some hm => exact .pure H₁ ⟨n, hm⟩
  | none =>
    refine .get ?_
    have hsame : g.builtin t₁ n receiver args =
        { g with methods := ms' }.builtin u₁ n receiver args := builtin_eq H₁ hr n
    simp only [← hsame, ← P.candidates_isEmpty (n := n) (h := g.hierarchy) H hr]
    cases hfound : (if (g.methods.candidates g.hierarchy t n receiver).isEmpty then
        g.builtin t₁ n receiver args else none) with
    | none => exact .pure H₁ hfitting
    | some target =>
      split at hfound
      · exact .pure H₁ (sameTarget_builtin H₁ hr hfound)
      · cases hfound

/-- What is to blame for a combination without a target corresponds. -/
theorem blamed_alike (n : Name) {fitting fitting' : List MethodId}
    (hf : List.Forall₂ (Counterparts g.methods ms' n) fitting fitting') :
    G.Alike t u (g.blamed receiver args fitting)
      ({ g with methods := ms' }.blamed receiver args fitting') fun t u =>
        Option.Rel fun p q => Counterparts g.methods ms' n p.1 q.1 ∧ p.2.1 = q.2.1 ∧
          G.Same t u p.2.2 q.2.2 := by
  cases hf with
  | nil => exact .pure H .none
  | @cons m m' fitting fitting' hm hf =>
    cases hf with
    | nil =>
      refine (firstRejected_alike P H hr ha hm 0).map fun _ _ r r' _ _ _ h => ?_
      cases h with
      | none => exact .none
      | some h => exact .some ⟨hm, h⟩
    | cons => exact .pure H .none

/-- The complaint about a combination is the same. -/
theorem failure_alike (n : Name) {whole whole' : List TypeId}
    (hw : List.Forall₂ (G.Same t u) whole whole') {fitting fitting' : List MethodId}
    (hf : List.Forall₂ (Counterparts g.methods ms' n) fitting fitting') :
    G.Alike t u (g.failure n receiver args whole fitting)
      ({ g with methods := ms' }.failure n receiver args whole' fitting')
      fun _ _ e e' => e = e' := by
  rw [Registry.failure_eq, Registry.failure_eq]
  refine (blamed_alike P H hr ha n hf).bind fun t₁ u₁ r r' H₁ hle hle' hrr => .get ?_
  have hwhole : whole.map (g.typeText t₁) = whole'.map (g.typeText u₁) := by
    rw [← List.forall₂_eq_eq_eq]
    exact List.rel_map (fun _ _ h => typeText_eq g.hierarchy H₁ (h.mono hle hle') g.names) hw
  refine .pure H₁ ?_
  cases hrr with
  | none =>
    have hreceiver : receiver.map (g.typeText t₁) = receiver.map (g.typeText u₁) :=
      Option.map_congr fun a h => typeText_eq g.hierarchy H₁ (.atom H₁ (hr a h)) g.names
    simp only [Option.map_none, Registry.complaint]
    rw [hreceiver, (P.mono hle hle').signatures H₁ g.names hr]
    exact congrArg (TypeError.Cause.noOverload _ _ · _) hwhole
  | @some p q hpq =>
    obtain ⟨m, i, r⟩ := p
    obtain ⟨m', i', r'⟩ := q
    obtain ⟨hm, rfl : i = i', hsame⟩ := hpq
    obtain ⟨md, md', hmd, hmd', -, hmethod⟩ := P.same hm
    have hfound : whole[i]?.map (g.typeText t₁) = whole'[i]?.map (g.typeText u₁) := by
      rw [← List.getElem?_map, ← List.getElem?_map, hwhole]
    simp only [Option.map_some, Registry.complaint, hmd, hmd', Option.bind_some,
      hmethod.definition, hfound, Registry.typeText, typeText_eq g.hierarchy H₁ hsame g.names]
    rfl

variable (G) in
/-- The same combination with the same target. -/
structure SameEntry (ms ms' : MethodTable) (e e' : ResolutionEntry) : Prop where
  receiver : e'.receiver = e.receiver
  args : e'.args = e.args
  receiver_atom : ∀ a ∈ e.receiver, G.Atom a
  args_atom : ∀ a ∈ e.args, G.Atom a
  target : G.SameTarget ms ms' e.target e'.target

theorem resolveOne_alike (n : Name) (span : Span) {whole whole' : List TypeId}
    (hw : List.Forall₂ (G.Same t u) whole whole') :
    G.Alike t u (g.resolveOne n whole span receiver args).run
      ({ g with methods := ms' }.resolveOne n whole' span receiver args).run
      fun _ _ => Outcomes (G.SameEntry g.methods ms') := by
  unfold Registry.resolveOne
  refine (pick_alike P H hr ha n).lift.bindExcept fun t₁ u₁ r r' H₁ hle hle' hrr => ?_
  match r, r' with
  | .ok target, .ok target' => exact .pure H₁ ⟨rfl, rfl, hr, ha, hrr⟩
  | .error fitting, .error fitting' =>
    refine (failure_alike (P.mono hle hle') H₁ hr ha n (hw.imp fun _ _ h => h.mono hle hle')
      hrr).lift.bindExcept fun t₂ u₂ e e' H₂ _ _ he => ?_
    rw [he]
    exact .pure H₂ rfl

end

section
variable {g : Registry} (P : G.Paired t u g.methods ms') (H : G.Twins t u)
  {args args' : List TypeId} (ha : List.Forall₂ (G.Same t u) args args')
include H

theorem split_alike {a b : TypeId} (hab : G.Same t u a b) :
    G.Alike t u (g.split a) ({ g with methods := ms' }.split b) fun _ _ l l' =>
      l' = l ∧ ∀ m ∈ l, G.Atom m := by
  have hl := Registry.split_eq (g := g) H.left (hab.splits H)
  have hr := Registry.split_eq (g := { g with methods := ms' }) H.right (hab.symm.splits H.symm)
  constructor <;> simp only [hl, hr]
  · exact H
  · exact le_refl t
  · exact le_refl u
  · exact ⟨hab.members.symm, hab.atoms⟩

theorem splitReceiver_alike {receiver receiver' : Option TypeId}
    (hr : Option.Rel (G.Same t u) receiver receiver') :
    G.Alike t u (g.splitReceiver receiver) ({ g with methods := ms' }.splitReceiver receiver')
      fun _ _ rs rs' => rs' = rs ∧ ∀ r ∈ rs, ∀ a ∈ r, G.Atom a := by
  cases hr with
  | none => exact .pure H ⟨rfl, by simp⟩
  | some hab =>
    refine (split_alike H hab).map ?_
    rintro t₁ u₁ l l' - - - ⟨rfl, hl⟩
    refine ⟨rfl, fun r hr a ha => ?_⟩
    obtain ⟨_, hm, rfl⟩ := List.mem_map.1 hr
    cases ha
    exact hl _ hm

omit H in
theorem splits_alike (ha : List.Forall₂ (G.Same t u) args args') : ∀ {t₁ u₁ : TypeTable},
    G.Twins t₁ u₁ → t ≤ t₁ → u ≤ u₁ →
    G.Alike t₁ u₁ (args.mapM g.split) (args'.mapM { g with methods := ms' }.split)
      fun _ _ ls ls' => ls' = ls ∧ ∀ l ∈ ls, ∀ a ∈ l, G.Atom a := by
  induction ha with
  | nil =>
    intro t₁ u₁ H₁ _ _
    rw [List.mapM_nil, List.mapM_nil]
    exact .pure H₁ ⟨rfl, by simp⟩
  | cons hab _ ih =>
    intro t₁ u₁ H₁ hle hle'
    rw [List.mapM_cons, List.mapM_cons]
    refine (split_alike H₁ (hab.mono hle hle')).bind fun t₂ u₂ l l' H₂ hle₂ hle₂' hl => ?_
    refine (ih H₂ (le_trans hle hle₂) (le_trans hle' hle₂')).bind fun _ _ ls ls' H₃ _ _ hls => ?_
    exact .pure H₃ ⟨by rw [hl.1, hls.1], List.forall_mem_cons.2 ⟨hl.2, hls.2⟩⟩

include ha

/-- A call is split into the same combinations. -/
theorem splitCall_alike {receiver receiver' : Option TypeId}
    (hr : Option.Rel (G.Same t u) receiver receiver') :
    G.Alike t u (g.splitCall receiver args) ({ g with methods := ms' }.splitCall receiver' args')
      fun _ _ cs cs' => cs' = cs ∧ ∀ c ∈ cs, (∀ a ∈ c.1, G.Atom a) ∧ ∀ a ∈ c.2, G.Atom a := by
  unfold Registry.splitCall
  refine (splitReceiver_alike H hr).bind fun t₁ u₁ rs rs' H₁ hle hle' hrs => ?_
  refine (splits_alike ha H₁ hle hle').bind fun t₂ u₂ ls ls' H₂ _ _ hls => ?_
  refine .pure H₂ ⟨by rw [hrs.1, hls.1], fun c hc => ?_⟩
  obtain ⟨r, hr, hc⟩ := List.mem_flatMap.1 hc
  obtain ⟨as, has, rfl⟩ := List.mem_map.1 hc
  refine ⟨hrs.2 r hr, fun a ha => ?_⟩
  obtain ⟨l, hl, hal⟩ := (Combination.mem_all.1 has).exists_of_mem_left ha
  exact hls.2 l hl a hal

include P

/-- A call has the same entries, or the same complaint. -/
theorem resolve_alike (n : Name) (span : Span) {receiver receiver' : Option TypeId}
    (hr : Option.Rel (G.Same t u) receiver receiver') :
    G.Alike t u (g.resolve n receiver args span).run
      ({ g with methods := ms' }.resolve n receiver' args' span).run
      fun _ _ => Outcomes (List.Forall₂ (G.SameEntry g.methods ms')) := by
  rw [Registry.resolve_eq, Registry.resolve_eq]
  refine (splitCall_alike H ha hr).lift.bindExcept fun t₁ u₁ cs cs' H₁ hle hle' hcs => ?_
  obtain ⟨rfl, hatoms⟩ := hcs
  refine Alike.mapM (A := fun c c' => c' = c ∧ c ∈ cs')
    (B := fun _ _ => G.SameEntry g.methods ms') (fun _ _ _ _ _ _ _ _ h => h)
    (List.forall₂_same.2 fun c hc => ⟨rfl, hc⟩) H₁ ?_
  rintro t₂ u₂ c c' H₂ hle₂ hle₂' ⟨rfl, hc⟩
  have hle₂ := le_trans hle hle₂
  have hle₂' := le_trans hle' hle₂'
  exact resolveOne_alike (P.mono hle₂ hle₂') H₂ (hatoms _ hc).1 (hatoms _ hc).2 n span
    (ha.imp fun _ _ h => h.mono hle₂ hle₂')

omit ha in
theorem goesToSelf_eq {a b : TypeId} (hab : G.Same t u a b) (n : Name) :
    g.goesToSelf t n a = { g with methods := ms' }.goesToSelf u n b := by
  simp only [Registry.goesToSelf, hab.flags_eq H, P.understands H hab]

theorem resolveSend_alike (n : Name) (span : Span) {self self' : Option TypeId}
    (hself : Option.Rel (G.Same t u) self self') :
    G.Alike t u (g.resolveSend n self args span).run
      ({ g with methods := ms' }.resolveSend n self' args' span).run
      fun _ _ => Outcomes (List.Forall₂ (G.SameEntry g.methods ms')) := by
  have hfilter : Option.Rel (G.Same t u) (self.filter (g.goesToSelf t n))
      (self'.filter ({ g with methods := ms' }.goesToSelf u n)) := by
    cases hself with
    | none => exact .none
    | @some a b hab =>
      simp only [Option.filter_some, ← goesToSelf_eq P H hab n]
      split
      · exact .some hab
      · exact .none
  have h := resolve_alike P H ha n span hfilter
  exact ⟨h.twins, h.left, h.right, h.post⟩

end

/-- The methods among some targets are counterparts. -/
theorem methods_alike {es es' : Resolution} (h : List.Forall₂ (G.SameEntry ms ms') es es') :
    List.Forall₂ (fun m m' => ∃ n, Counterparts ms ms' n m m') es.methods es'.methods := by
  refine List.rel_foldl (fun l l' hl e e' he => ?_) .nil h
  have htarget := he.target
  generalize e.target = x, e'.target = y at htarget ⊢
  cases x with
  | method m =>
    cases y with
    | method m' =>
      obtain ⟨n, hm⟩ := htarget
      have hmem : l.contains m = l'.contains m' := by
        rw [Bool.eq_iff_iff, List.contains_iff_mem, List.contains_iff_mem, hm.mem_iff hl]
      dsimp only
      rw [hmem]
      split
      · exact hl
      · exact List.rel_append hl (.cons ⟨n, hm⟩ .nil)
    | _ => cases htarget
  | allocate c | new c => cases y <;> first | exact hl | cases htarget

end Ground

end Multimethod
