import Multimethod.Proofs.Resolution.Classes
import Multimethod.Proofs.Resolution.Resolve
import Multimethod.Proofs.Resolution.Specificity

/-!
# Resolution is stable

Resolution describes types on the way, and the handle of a type depends on what has been described
before it. But the types that a call is split into are there already, and what a combination goes to,
or the complaint about it, is determined by the members of restrictions (`Registry.resolveOne_spec`).
So a call is resolved alike in every later table (`Registry.resolve_stable`).
-/

namespace Multimethod

open Relation TypeTable

/-! ## Steady computations -/

namespace TypeTable

variable {α β ε : Type} {t u : TypeTable}

/-- From every later table the computation gives the same result. It may describe types. -/
def Steady (t : TypeTable) (x : StateM TypeTable α) : Prop :=
  ∃ a, ∀ u : TypeTable, u.WF → t ≤ u → (x u).1 = a ∧ (x u).2.WF ∧ u ≤ (x u).2

namespace Steady

variable {x : StateM TypeTable α}

theorem pure (t : TypeTable) (a : α) : Steady t (pure a) :=
  ⟨a, fun u hu _ => ⟨rfl, hu, le_refl u⟩⟩

theorem eq (hs : Steady t x) (H : t.WF) (hu : u.WF) (hle : t ≤ u) : (x u).1 = (x t).1 := by
  obtain ⟨a, h⟩ := hs
  rw [(h u hu hle).1, (h t H (le_refl t)).1]

/-- A computation is steady if its result is determined by something that does not change. -/
theorem of_settles {P : α → Prop} (hunique : ∀ a b, P a → P b → a = b) (H : t.WF)
    (h : ∀ u : TypeTable, u.WF → t ≤ u → Settles u x fun a _ => P a) : Steady t x :=
  ⟨(x t).1, fun u hu hle => ⟨hunique _ _ (h u hu hle).post (h t H (le_refl t)).post,
    (h u hu hle).wf, (h u hu hle).le⟩⟩

/-- A computation that may end in an error, followed by another one. -/
theorem bindExcept {x : ExceptT ε (StateM TypeTable) α} {f : α → ExceptT ε (StateM TypeTable) β}
    (hx : Steady t x.run) (hf : ∀ a, Steady t (f a).run) : Steady t (x >>= f).run := by
  have run (u : TypeTable) : (x >>= f).run u =
      (ExceptT.bindCont f (x.run u).1 : StateM TypeTable (Except ε β)) (x.run u).2 := rfl
  obtain ⟨r, hr⟩ := hx
  cases r with
  | error e =>
    refine ⟨.error e, fun u hu hle => ?_⟩
    obtain ⟨hres, hwf, hle'⟩ := hr u hu hle
    rw [run, hres]
    exact ⟨rfl, hwf, hle'⟩
  | ok a =>
    obtain ⟨q, hq⟩ := hf a
    refine ⟨q, fun u hu hle => ?_⟩
    obtain ⟨hres, hwf, hle'⟩ := hr u hu hle
    obtain ⟨hres', hwf', hle''⟩ := hq _ hwf (le_trans hle hle')
    rw [run, hres]
    exact ⟨hres', hwf', le_trans hle' hle''⟩

/-- Going through a list. -/
theorem mapMExcept {f : α → ExceptT ε (StateM TypeTable) β} {l : List α}
    (h : ∀ a ∈ l, Steady t (f a).run) : Steady t (l.mapM f).run := by
  induction l with
  | nil =>
    rw [List.mapM_nil]
    exact pure t _
  | cons a l ih =>
    obtain ⟨ha, hl⟩ := List.forall_mem_cons.1 h
    rw [List.mapM_cons]
    exact ha.bindExcept fun b => (ih hl).bindExcept fun bs => pure t _

end Steady

end TypeTable

namespace Registry

variable {g : Registry} {t u v : TypeTable} {a : TypeId} {receiver : Option TypeId}
  {args c : List TypeId} {k : Name} {span : Span}

/-! ## Splitting -/

/-- Where a type takes in the classes below one, this is a class of the hierarchy. -/
def Expandable (g : Registry) (t : TypeTable) (a : TypeId) : Prop :=
  t.Has a ∧ ∀ m ∈ t.members a, ∀ c, t.shape m = .below c → c.index < g.hierarchy.size

theorem Expandable.of_isMember (ha : (t.shape a).IsMember)
    (hc : ∀ c, t.shape a = .below c → c.index < g.hierarchy.size) : g.Expandable t a := by
  refine ⟨has_of_isMember ha, fun m hm => ?_⟩
  rw [members_of_isMember ha, List.mem_singleton] at hm
  exact hm ▸ hc

theorem mapM_snd {α β : Type} {f : α → StateM TypeTable β} {l : List α}
    (h : ∀ a ∈ l, (f a t).2 = t) : (l.mapM f t).2 = t := by
  induction l with
  | nil => rfl
  | cons a l ih =>
    obtain ⟨ha, hl⟩ := List.forall_mem_cons.1 h
    rw [List.mapM_cons]
    show (l.mapM f (f a t).2).2 = t
    rw [ha, ih hl]

/-- To split a type describes no more types: the classes below one have their types already. -/
theorem Known.split_snd (K : g.Known t) (F : g.hierarchy.Forest) (ha : g.Expandable t a) :
    (g.split a t).2 = t := by
  rw [split_eq_mapM]
  refine mapM_snd (f := g.splitMember) fun m hm => ?_
  by_cases hs : ∃ c, t.shape m = .below c
  · obtain ⟨c, hc⟩ := hs
    rw [splitMember_below hc]
    refine mapM_snd fun d hd => ?_
    obtain ⟨b, hb, hbd⟩ := K.exact d (F.lt_size_of_mem_descendants (ha.2 m hm c hc) hd)
    have := intern_shape hb
    rw [hbd] at this
    exact congrArg Prod.snd this
  · rw [splitMember_eq fun c hc => hs ⟨c, hc⟩]

/-- To split a call describes no more types. -/
theorem Known.splitCall_snd (K : g.Known t) (F : g.hierarchy.Forest)
    (hr : ∀ a ∈ receiver, g.Expandable t a) (ha : ∀ a ∈ args, g.Expandable t a) :
    (g.splitCall receiver args t).2 = t := by
  have hreceiver : (g.splitReceiver receiver t).2 = t := by
    cases receiver with
    | none => rfl
    | some a => exact K.split_snd F (hr a rfl)
  show ((args.mapM g.split) (g.splitReceiver receiver t).2).2 = t
  rw [hreceiver]
  exact mapM_snd fun a hm => K.split_snd F (ha a hm)

/-! ## Combinations -/

/-- What a combination comes to, by what is chosen for it and what is blamed. -/
def Comes (g : Registry) (t : TypeTable) (k : Name) (args : List TypeId) (span : Span)
    (receiver : Option TypeId) (c : List TypeId) (r : Except TypeError ResolutionEntry) : Prop :=
  ∃ best, g.Chooses t receiver c none (g.fitting t k receiver c.length) best ∧
    match g.outcome t k receiver c best with
    | .ok target => r = .ok ⟨receiver, c, target⟩
    | .error fitting => ∃ b, g.Blames t receiver c fitting b ∧
        r = .error ⟨g.complaint t k receiver args
          (b.map fun p => (p.1, p.2.1, t.textOf g.className p.2.2)), span⟩

theorem Comes.unique {r q : Except TypeError ResolutionEntry}
    (hr : g.Comes t k args span receiver c r) (hq : g.Comes t k args span receiver c q) : r = q := by
  obtain ⟨best, hbest, hr⟩ := hr
  obtain ⟨best', hbest', hq⟩ := hq
  obtain rfl := hbest.unique hbest'
  cases hout : g.outcome t k receiver c best with
  | ok target =>
    rw [hout] at hr hq
    exact hr.trans hq.symm
  | error fitting =>
    rw [hout] at hr hq
    obtain ⟨b, hb, rfl⟩ := hr
    obtain ⟨b', hb', rfl⟩ := hq
    rw [hb.unique hb']

section
variable (H : t.WF) (D : g.Described t) (hr : ∀ a ∈ receiver, t.Has a) (hc : ∀ a ∈ c, t.Has a)
  (ha : ∀ a ∈ args, t.Has a)
include H D hr hc ha

/-- What a combination comes to is settled by the table of its types, whatever has been described
since. -/
theorem resolveOne_spec (hu : u.WF) (hle : t ≤ u) (k : Name) (span : Span) :
    Settles u (g.resolveOne k args span receiver c).run
      fun r _ => g.Comes t k args span receiver c r := by
  refine (pick_spec_later H D hr hc hu hle k).lift.bindExcept (E := fun _ _ => False)
    (fun r v hv hle' ⟨best, hbest, heq⟩ => ?_) fun _ _ _ _ h => h.elim
  cases r with
  | ok target =>
    refine .pure hv ⟨best, hbest, ?_⟩
    rw [← heq]
  | error fitting =>
    refine (failure_spec H D hr hv (le_trans hle hle') hc ha k fitting).lift.bindExcept
      (E := fun _ _ => False) (fun e w hw _ ⟨b, hb, he⟩ => ?_) fun _ _ _ _ h => h.elim
    refine .pure hw ⟨best, hbest, ?_⟩
    rw [← heq]
    exact ⟨b, hb, by rw [he]⟩

theorem resolveOne_steady (k : Name) (span : Span) :
    Steady t (g.resolveOne k args span receiver c).run :=
  .of_settles (fun _ _ => Comes.unique) H fun _ hu hle => resolveOne_spec H D hr hc ha hu hle k span

end

/-! ## Calls -/

/-- The types of a call are split into types of its table, and split alike in every later one. -/
theorem Known.splitCall_eq (K : g.Known t) (S : g.Sound t) (hr : ∀ a ∈ receiver, g.Expandable t a)
    (ha : ∀ a ∈ args, g.Expandable t a) : g.CallParts t receiver args t ∧
      ∀ u : TypeTable, u.WF → t ≤ u →
        g.splitCall receiver args u = (g.callParts t receiver args, u) := by
  have hs := splitCall_settles (g := g) S.types (fun a h => (hr a h).1) fun a h => (ha a h).1
  have hsnd := K.splitCall_snd S.rooted.toForest hr ha
  obtain ⟨hcs, P⟩ := hs.post t S.types (by rw [hsnd]; exact TypeTable.le_refl t)
  refine ⟨P, fun u hu hle => ?_⟩
  rw [hs.again u hu (by rwa [hsnd]), hcs]

/-- A call goes through the same combinations in every later table, to the same end. -/
theorem Known.resolve_steady (K : g.Known t) (S : g.Sound t)
    (hr : ∀ a ∈ receiver, g.Expandable t a) (ha : ∀ a ∈ args, g.Expandable t a) (k : Name)
    (span : Span) : Steady t (g.resolve k receiver args span).run := by
  obtain ⟨P, hsplit⟩ := K.splitCall_eq S hr ha
  have run (u : TypeTable) (hu : u.WF) (hle : t ≤ u) : (g.resolve k receiver args span).run u =
      ((g.callParts t receiver args).mapM fun c => g.resolveOne k args span c.1 c.2).run u := by
    rw [resolve_eq]
    show ((g.splitCall receiver args u).1.mapM fun c => g.resolveOne k args span c.1 c.2).run
      (g.splitCall receiver args u).2 = _
    rw [hsplit u hu hle]
  have one (c) (hc : c ∈ g.callParts t receiver args) :
      Steady t (g.resolveOne k args span c.1 c.2).run := by
    have hc := mem_callParts.1 hc
    exact resolveOne_steady S.types S.restrictions (P.has_receiver hc) (P.has_args hc)
      (fun a hm => (ha a hm).1) k span
  obtain ⟨r, h⟩ := Steady.mapMExcept one
  refine ⟨r, fun u hu hle => ?_⟩
  rw [run u hu hle]
  exact h u hu hle

theorem resolveSend_run (k : Name) (self : Option TypeId) (args : List TypeId) (span : Span)
    (t : TypeTable) : (g.resolveSend k self args span).run t =
      (g.resolve k (self.filter (g.goesToSelf t k)) args span).run t := rfl

theorem mem_of_mem_filter {p : TypeId → Bool} {self : Option TypeId} (ha : a ∈ self.filter p) :
    a ∈ self := (Option.filter_eq_some_iff.1 ha).1

theorem filter_goesToSelf_mono (H : t.WF) (hle : t ≤ u) {self : Option TypeId}
    (hs : ∀ a ∈ self, t.Has a) (k : Name) :
    self.filter (g.goesToSelf u k) = self.filter (g.goesToSelf t k) := by
  cases self with
  | none => rfl
  | some a => simp only [Option.filter_some, goesToSelf_mono H hle (hs a rfl)]

/-! ## Growth -/

/-- What describes types while the registry stays as it is: describing one, splitting one, and
resolving calls. -/
inductive Describes (g : Registry) : TypeTable → TypeTable → Prop where
  | describe {t : TypeTable} {o : TypeTable.Op} (ho : o.Fits t) : Describes g t (o.run t).2
  | split {t : TypeTable} {a : TypeId} (ha : t.Has a) : Describes g t (g.split a t).2
  | resolve {t : TypeTable} (k : Name) {receiver : Option TypeId} {args : List TypeId} (span : Span)
      (hr : ∀ a ∈ receiver, t.Has a) (ha : ∀ a ∈ args, t.Has a) :
    Describes g t ((g.resolve k receiver args span).run t).2
  | resolveSend {t : TypeTable} (k : Name) {self : Option TypeId} {args : List TypeId} (span : Span)
      (hs : ∀ a ∈ self, t.Has a) (ha : ∀ a ∈ args, t.Has a) :
    Describes g t ((g.resolveSend k self args span).run t).2

theorem Describes.grows (hd : g.Describes t u) (H : t.WF) (D : g.Described t) : u.WF ∧ t ≤ u := by
  cases hd with
  | describe ho =>
    have hs := TypeTable.Op.run_settles H ho
    exact ⟨hs.wf, hs.le⟩
  | split ha =>
    have hs := split_parts (g := g) H ha
    exact ⟨hs.wf, hs.le⟩
  | resolve k span hr ha =>
    have hs := resolve_goes H D hr ha k span
    exact ⟨hs.wf, hs.le⟩
  | resolveSend k span hself ha =>
    have hs := resolve_goes H D
      (fun a h => hself a (mem_of_mem_filter (p := g.goesToSelf t k) h)) ha k span
    exact ⟨hs.wf, hs.le⟩

theorem grows_of_describes (hd : ReflTransGen g.Describes t u) (H : t.WF) (D : g.Described t) :
    u.WF ∧ t ≤ u := by
  induction hd with
  | refl => exact ⟨H, le_refl t⟩
  | tail _ hd ih =>
    obtain ⟨hwf, hle⟩ := hd.grows ih.1 (D.mono ih.2)
    exact ⟨hwf, le_trans ih.2 hle⟩

/-- Whatever has been described in between, a type is split alike and a call is resolved alike: with
the same entries in the same order, or with the same complaint. -/
theorem resolve_stable (hg : g.Reachable t) (hd : ReflTransGen g.Describes t u) :
    (∀ a, g.Expandable t a → (g.split a u).1 = (g.split a t).1) ∧
    ∀ k receiver args span, (∀ a ∈ receiver, g.Expandable t a) → (∀ a ∈ args, g.Expandable t a) →
      ((g.resolve k receiver args span).run u).1 = ((g.resolve k receiver args span).run t).1 ∧
      ((g.resolveSend k receiver args span).run u).1 =
        ((g.resolveSend k receiver args span).run t).1 := by
  have S := hg.sound
  have K := hg.known
  obtain ⟨hu, hle⟩ := grows_of_describes hd S.types S.restrictions
  refine ⟨fun a ha => ?_, fun k receiver args span hr ha => ⟨?_, ?_⟩⟩
  · have hsnd := K.split_snd S.rooted.toForest ha
    rw [(split_parts S.types ha.1).again u hu (hsnd.symm ▸ hle)]
  · exact (K.resolve_steady S hr ha k span).eq S.types hu hle
  · have hr' : ∀ a ∈ receiver.filter (g.goesToSelf t k), g.Expandable t a :=
      fun a h => hr a (mem_of_mem_filter h)
    rw [resolveSend_run, resolveSend_run,
      filter_goesToSelf_mono S.types hle (fun a h => (hr a h).1)]
    exact (K.resolve_steady S hr' ha k span).eq S.types hu hle

/-- A method that takes a number or an object like the receiver, and the type of all objects of the
class that it is defined on. -/
def selfOrInt : Registry × TypeTable :=
  let p := family [(some (.instances ⟨9⟩), [.union [.self, .named ⟨7⟩]])]
  (p.1, (TypeTable.below ⟨5⟩ p.2).2)

/-- The table in which `Bool | Float` has been described too. -/
def laterTypes : TypeTable := (TypeTable.union .bool .float selfOrInt.2).2

/-- The restriction gets another handle for each receiver, and these depend on what has been
described; the entries do not. -/
theorem resolve_stable_selfOrInt :
    let g := selfOrInt.1
    let t := selfOrInt.2
    let resolve := (g.resolve ⟨11⟩ (some ⟨17⟩) [.int] .dummy).run
    g.Reachable t ∧ ReflTransGen g.Describes t laterTypes ∧ t.shape ⟨17⟩ = .below ⟨5⟩ ∧
      (resolve t).2.find? (.union [.int, ⟨14⟩]) = some ⟨19⟩ ∧
      (resolve laterTypes).2.find? (.union [.int, ⟨14⟩]) = some ⟨20⟩ ∧
      (resolve t).1 = .ok [⟨some ⟨12⟩, [.int], .method ⟨0⟩⟩, ⟨some ⟨14⟩, [.int], .method ⟨0⟩⟩] ∧
      (resolve laterTypes).1 = (resolve t).1 :=
  have hg : selfOrInt.1.Reachable selfOrInt.2 :=
    (family_reachable _).describe (o := .below ⟨5⟩) nofun
  have hd : ReflTransGen selfOrInt.1.Describes selfOrInt.2 laterTypes :=
    .single (.describe (o := .union .bool .float) (by decide +kernel))
  have hbelow : selfOrInt.2.shape ⟨17⟩ = .below ⟨5⟩ := by decide +kernel
  have hint : selfOrInt.2.shape .int = .exact .int := by decide +kernel
  have hr : ∀ a ∈ some (⟨17⟩ : TypeId), selfOrInt.1.Expandable selfOrInt.2 a := by
    rintro _ ⟨⟩
    refine .of_isMember (by rw [hbelow]; trivial) fun c hc => ?_
    cases hbelow.symm.trans hc
    decide +kernel
  have ha : ∀ a ∈ [TypeId.int], selfOrInt.1.Expandable selfOrInt.2 a := by
    rintro a ha
    rw [List.mem_singleton.1 ha]
    refine .of_isMember (by rw [hint]; trivial) fun c hc => ?_
    rw [hint] at hc
    cases hc
  have hstable := (resolve_stable hg hd).2 ⟨11⟩ (some ⟨17⟩) [.int] .dummy hr ha
  ⟨hg, hd, hbelow, by decide +kernel, by decide +kernel, by decide +kernel, hstable.1⟩

end Registry

end Multimethod
