import Multimethod.Proofs.Evolution.Call
import Multimethod.Proofs.Evolution.Local

/-!
# Terms let states and scopes evolve

However terms are nested, typing one finds a type that is described, leaves all locals as wide as
they were or wider, and loses nothing that the scope has recorded (`InferIn.inferTerm_course`).
-/

namespace Multimethod

open Inference TypeTable

/-- There is nothing to change in a class that is not there. -/
theorem Hierarchy.modify_of_le {h : Hierarchy} {c : ClassId} (hc : h.size ≤ c.index)
    (f : ClassInfo → ClassInfo) (hf : ∀ i, (f i).name = i.name) : h.modify c f hf = h := by
  refine congrArg Hierarchy.mk (Catalog.ext_entries (Array.ext_getElem? fun i => ?_))
  rw [Catalog.modify, Array.getElem?_modify]
  split
  · rename_i hi
    rw [Array.getElem?_eq_none (hi ▸ hc)]
    rfl
  · rfl

/-- What is assigned to an instance variable widens the type of that one, and of no other. -/
theorem Hierarchy.ivarType_assignIvar (h : Hierarchy) (c c' : ClassId) (n n' : Name) (a : TypeId)
    (t : TypeTable) :
    (h.assignIvar c n a t).1.2.ivarType c' n' = h.ivarType c' n' ∨ c' = c ∧ n' = n ∧
      (h.assignIvar c n a t).1.2.ivarType c' n' =
        some (TypeTable.union ((h.ivarType c n).getD .never) a t).1 := by
  rw [assignIvar_eq]
  dsimp only
  split
  · exact .inl rfl
  · by_cases hc : c.index < h.size
    · rw [h.ivarType_assign hc]
      split
      · rename_i hcn
        exact .inr ⟨hcn.1, hcn.2, rfl⟩
      · exact .inl rfl
    · exact .inl (by rw [modify_of_le (Nat.le_of_not_lt hc)])

namespace Inference

variable {ctx : Context} {σ : State} {a : TypeId}

/-- Widening an instance variable lets a state evolve. -/
theorem State.Described.assigned (D : σ.Described ctx) (ha : σ.types.Has a) (c : ClassId)
    (n : Name) : σ.Evolves ctx none (World.assigned σ c n a) := by
  have hs := union_joins D.types (D.has_ivarType c n) ha
  have htypes : (World.assigned σ c n a).types =
      (TypeTable.union ((σ.hierarchy.ivarType c n).getD .never) a σ.types).2 :=
    σ.hierarchy.snd_assignIvar c n a σ.types
  have hwf : (World.assigned σ c n a).types.WF := htypes ▸ hs.wf
  have hle : σ.types ≤ (World.assigned σ c n a).types := htypes ▸ hs.le
  have hj : (World.assigned σ c n a).types.Joins ((σ.hierarchy.ivarType c n).getD .never) a
      (TypeTable.union ((σ.hierarchy.ivarType c n).getD .never) a σ.types).1 := htypes ▸ hs.post
  have D' := D.of_types hwf hle
  refine .of_tables { D' with ivars := fun c' n' b hb => ?_ } hle fun c' n' b hb => ?_
  · obtain h | ⟨-, -, h⟩ := σ.hierarchy.ivarType_assignIvar c c' n n' a σ.types
    · exact (D.ivars c' n' b (h.symm.trans hb)).mono hle
    · cases h.symm.trans hb
      exact hj.left.2.1
  · obtain h | ⟨rfl, rfl, h⟩ := σ.hierarchy.ivarType_assignIvar c c' n n' a σ.types
    · exact ⟨b, h.trans hb, .refl ((D.ivars c' n' b hb).mono hle)⟩
    · refine ⟨_, h, ?_⟩
      have hold : (σ.hierarchy.ivarType c' n').getD .never = b := by rw [hb]; rfl
      exact hold ▸ hj.left

end Inference

namespace InferIn

variable {ctx : Context} {visit : SpecId → Infer TypeId} {p q : State × Scope} {a : TypeId}
  {x y : InferIn TypeId}

/-- A computation that lets states and scopes evolve from wherever it is run, and widens locals. -/
def Widening (ctx : Context) (x : InferIn TypeId) : Prop :=
  ∀ p, Fine ctx p → Course (EvolvesIn ctx) p x (Finds p.2.locals)

/-! ## Terms without parts -/

/-- A type that leaves the locals alone. -/
theorem finds_pure (h : Fine ctx p) (ha : p.1.types.Has a) :
    Course (EvolvesIn ctx) p (pure a) (Finds p.2.locals) :=
  .pure (.refl h) ⟨ha, h.scope.locals.refl⟩

/-- The type that a computation on the type table gives. -/
theorem finds_onTypes {x : StateM TypeTable TypeId} (h : Fine ctx p)
    (hs : Settles p.1.types x fun a t => t.Has a) :
    Course (EvolvesIn ctx) p (InferIn.onTypes x) (Finds p.2.locals) := by
  refine (Course.onTypesIn h hs).mono fun a q hq ha => ⟨ha.1, ?_⟩
  rw [ha.2]
  exact (h.scope.locals.mono hq.types).refl

/-- Adding a type to what is recorded of an expression. -/
theorem recorded_course (site : Site) {L : Locals} (hx : Course (EvolvesIn ctx) p x (Finds L)) :
    Course (EvolvesIn ctx) p (recorded site x) (Finds L) := by
  unfold recorded
  refine hx.bind fun a p₁ h₁ ha => .scope ?_
  have hknown : p₁.1.types.Has (p₁.2.body.exprTypes[site.id]?.getD .never) := by
    cases hk : p₁.2.body.exprTypes[site.id]? with
    | none => exact h₁.fine.state.types.has_never
    | some b => exact h₁.described.exprTypes _ b hk
  refine (Course.unionIn h₁.fine hknown ha.has).bind fun all p₂ h₂ hall => ?_
  obtain ⟨hj, hS⟩ := hall
  have hle := h₂.types
  set S : Scope := { p₂.2 with body := { p₂.2.body with
    exprTypes := p₂.2.body.exprTypes.insert site.id all } } with hSdef
  have lookup {e : ExprId} {o : Option TypeId} (ho : S.body.exprTypes[e]? = o) :
      e = site.id ∧ o = some all ∨ p₂.2.body.exprTypes[e]? = o := by
    rw [← ho, hSdef, Std.ExtTreeMap.getElem?_insert]
    split
    · rename_i hc
      exact .inl ⟨(Std.compare_eq_iff_eq.1 hc).symm, rfl⟩
    · exact .inr rfl
  have hw : p₂.2.Widens p₂.1.types S := by
    refine { h₂.described.widens_refl with exprTypes := fun e b hb => ?_ }
    obtain ⟨he, ho⟩ | ho := lookup (e := e) rfl
    · rw [← hS, ← he, hb] at hj
      exact ⟨all, ho, hj.left⟩
    · exact ⟨b, ho.symm.trans hb, .refl (h₂.described.exprTypes e b hb)⟩
  have hd : S.Described p₂.1.types := by
    refine { h₂.described with exprTypes := fun e b hb => ?_ }
    obtain ⟨-, ho⟩ | ho := lookup hb
    · cases ho
      exact hj.left.2.1
    · exact h₂.described.exprTypes e b ho
  refine (Course.modifyScope h₂.fine hw hd).bind fun _ p₃ h₃ hp₃ => ?_
  subst hp₃
  refine .pure (.refl h₃.fine) ⟨ha.has.mono hle, ?_⟩
  show Locals.Inside p₂.1.types L p₂.2.locals
  rw [hS]
  exact ha.locals.mono hle

theorem assignLocal_course (h : Fine ctx p) (n : Name) (ha : p.1.types.Has a) :
    Course (EvolvesIn ctx) p (assignLocal n a) fun _ q =>
      Locals.Inside q.1.types p.2.locals q.2.locals := by
  unfold assignLocal
  split
  · refine .local? ((Course.unionIn h (h.scope.locals.getD h.state.types.has_never n) ha).bind
      fun b p₁ h₁ hb => ?_)
    obtain ⟨hj, hS⟩ := hb
    refine (Course.setLocal h₁.fine hj.left.2.1).mono fun _ q hq hq' => ?_
    subst hq'
    rw [hS]
    refine Locals.inside_insert (fun m b _ hb => (h.scope.locals.mono h₁.types).refl m b hb) ?_
    intro b hb
    rw [hb] at hj
    exact hj.left
  · exact .pure (.refl h) h.scope.locals.refl

theorem readIvar_course (h : Fine ctx p) (n : Name) :
    Course (EvolvesIn ctx) p (readIvar n) (Finds p.2.locals) := by
  unfold readIvar
  refine .scope ?_
  cases p.2.selfClass with
  | none => exact finds_pure h h.state.types.has_nil
  | some c =>
    refine Course.get (f := fun s : State × Scope => _) ?_
    exact finds_onTypes h ((orNil_settles h.state.types (h.state.has_ivarType c n)).mono
      fun _ _ _ _ hb => hb.1)

/-- Widening an instance variable by what is assigned to it. -/
theorem assignIvar_course (h : Fine ctx p) (n : Name) (ha : p.1.types.Has a) :
    Course (EvolvesIn ctx) p (assignIvar n a) fun _ q => q.2 = p.2 := by
  unfold assignIvar
  refine .scope ?_
  cases p.2.selfClass with
  | none => exact .pure (.refl h) rfl
  | some c =>
    dsimp only
    split
    · obtain ⟨σ, S⟩ := p
      intro r q hq
      have hq : some (Except.ok (), World.assigned σ c n a, S) = some (r, q) := hq
      cases hq
      have he := State.Described.assigned h.state ha c n
      have hS := h.scope.mono he.types
      exact ⟨⟨he, hS.widens_refl, hS⟩, fun _ _ => rfl⟩
    · exact .pure (.refl h) rfl

theorem inferConst_course (h : Fine ctx p) (site : Site) (n : Name) :
    Course (EvolvesIn ctx) p (inferConst ctx site n) (Finds p.2.locals) := by
  unfold inferConst
  refine Course.get (f := fun s : State × Scope => _) ?_
  dsimp only
  split
  · rename_i c _
    exact finds_onTypes h ((classObject_settles h.state.types c).mono fun _ _ _ _ hb => hb.1)
  · exact .throw (.refl h)

/-- Adding a type to those of the values that are returned early. -/
theorem returned_course {L : Locals} (h : Fine ctx p) (ha : p.1.types.Has a)
    (hL : Locals.Inside p.1.types L p.2.locals) :
    Course (EvolvesIn ctx) p (do
      let returns ← union (← scope).returns a
      modifyScope fun s => { s with returns }
      return .never) (Finds L) := by
  refine .scope ((Course.unionIn h h.scope.returns ha).bind fun b p₁ h₁ hb => ?_)
  obtain ⟨hj, hS⟩ := hb
  have hw : p₁.2.Widens p₁.1.types { p₁.2 with returns := b } := by
    refine { h₁.described.widens_refl with returns := ?_ }
    rw [hS]
    exact hj.left
  have hd : Scope.Described p₁.1.types { p₁.2 with returns := b } :=
    { h₁.described with returns := hj.left.2.1 }
  refine (Course.modifyScope h₁.fine hw hd).bind fun _ p₂ h₂ hp₂ => ?_
  subst hp₂
  refine .pure (.refl h₂.fine) ⟨h₂.fine.state.types.has_never, ?_⟩
  show Locals.Inside p₁.1.types L p₁.2.locals
  rw [hS]
  exact hL.mono h₁.types

theorem arithmetic_course (h : Fine ctx p) (site : Site) (op : Primitive) (as : List TypeId) :
    Course (EvolvesIn ctx) p (arithmetic ctx site op as) (Finds p.2.locals) := by
  unfold arithmetic
  have H := h.state.types
  have hint : p.1.types.Has .int := H.has_initial (by decide)
  have hfloat : p.1.types.Has .float := H.has_initial (by decide)
  refine (Course.unionIn h hint hfloat).bind fun number p₁ h₁ hn => ?_
  obtain ⟨hj, hS⟩ := hn
  rw [← hS]
  refine Course.get (f := fun s : State × Scope => _) ?_
  dsimp only
  split
  · exact .throw (.refl h₁.fine)
  · split
    · exact finds_pure h₁.fine (hint.mono h₁.types)
    · split
      · exact finds_pure h₁.fine (hfloat.mono h₁.types)
      · exact finds_pure h₁.fine hj.left.2.1

theorem inferPrimitive_course (h : Fine ctx p) (site : Site) (op : Primitive) (as : List TypeId) :
    Course (EvolvesIn ctx) p (inferPrimitive ctx site op as) (Finds p.2.locals) := by
  have H := h.state.types
  unfold inferPrimitive
  split
  · exact finds_pure h (H.has_initial (by decide))
  · split
    · exact finds_pure h (H.has_initial (by decide))
    · exact finds_pure h (H.has_initial (by decide))
    · exact arithmetic_course h site op as

/-- Typing a call records its rows. -/
theorem inferCallAt_course (hv : Visits ctx visit) (h : Fine ctx p) (site : Site)
    {receiver : Option TypeId} {args : List TypeId} (hr : ∀ a ∈ receiver, p.1.types.Has a)
    (ha : ∀ a ∈ args, p.1.types.Has a) (method : Name) :
    Course (EvolvesIn ctx) p (inferCallAt ctx visit site receiver method args)
      (Finds p.2.locals) := by
  unfold inferCallAt
  have hself := h.scope.has_self h.state.types
  refine .scope ((Course.lift h (Infer.inferCall_course hv h.state hr hself ha method _)).bind
    fun r p₁ h₁ hr => ?_)
  obtain ⟨hr, hS⟩ := hr
  have hw : p₁.2.Widens p₁.1.types { p₁.2 with body := p₁.2.body.addRows site.id r.2 } := by
    refine { h₁.described.widens_refl with rows := fun e r' as hrow => ?_ }
    rw [Body.dispatchAt_addRows]
    split
    · rename_i he
      rw [DispatchTable.find?_merge_eq, Option.isSome_or, ← he, hrow, Bool.or_true]
    · exact hrow
  have hd : Scope.Described p₁.1.types { p₁.2 with body := p₁.2.body.addRows site.id r.2 } :=
    { h₁.described with }
  refine (Course.modifyScope h₁.fine hw hd).bind fun _ p₂ h₂ hp₂ => ?_
  subst hp₂
  refine .pure (.refl h₂.fine) ⟨hr, ?_⟩
  show Locals.Inside p₁.1.types p.2.locals p₁.2.locals
  rw [hS]
  exact (h.scope.locals.mono h₁.types).refl

/-! ## Terms with parts -/

theorem unlessNever_course {L : Locals} (h : Fine ctx p) (hL : Locals.Inside p.1.types L p.2.locals)
    (hx : Course (EvolvesIn ctx) p x (Finds p.2.locals)) :
    Course (EvolvesIn ctx) p (unlessNever a x) (Finds L) := by
  unfold unlessNever
  split
  · exact .pure (.refl h) ⟨h.state.types.has_never, hL⟩
  · refine hx.mono fun b q hq hb => ⟨hb.has, ?_⟩
    exact (hL.mono hq.types).trans hb.locals

/-- A computation of which what comes next is left out if it has no value. -/
theorem followed_course {f : TypeId → InferIn TypeId} (h : Fine ctx p) (hx : Widening ctx x)
    (hf : ∀ a q, Fine ctx q → q.1.types.Has a → Course (EvolvesIn ctx) q (f a) (Finds q.2.locals)) :
    Course (EvolvesIn ctx) p (do
      let a ← x
      unlessNever a (f a)) (Finds p.2.locals) := by
  refine (hx p h).bind fun a p₁ h₁ ha => ?_
  exact unlessNever_course h₁.fine ha.locals (hf a p₁ h₁.fine ha.has)

/-- The second operand of `and` or `or` may be left out. -/
theorem connective_course (h : Fine ctx p) (hx : Widening ctx x) (hy : Widening ctx y) :
    Course (EvolvesIn ctx) p (do
      let a ← x
      unlessNever a do
        let bound ← locals
        let b ← y
        orNilExcept bound
        union a b) (Finds p.2.locals) := by
  refine followed_course h hx fun a q hq ha => .locals ((hy q hq).bind fun b q₁ h₁ hb => ?_)
  refine (orNilExcept_course h₁.fine q.2.locals).bind fun _ q₂ h₂ hin => ?_
  have hle := le_trans h₁.types h₂.types
  refine (Course.unionIn h₂.fine (ha.mono hle) (hb.has.mono h₂.types)).mono fun c q₃ h₃ hc => ?_
  refine ⟨hc.1.left.2.1, ?_⟩
  rw [hc.2]
  exact ((hb.locals.mono h₂.types).trans hin).mono h₃.types

/-- One round of a loop, and then `next` if the locals have changed. -/
theorem round_course (h : Fine ctx p) (hx : Widening ctx x) (hy : Widening ctx y)
    (bound : Option Locals) (next : Locals → InferIn Unit)
    (hnext : ∀ L q, Fine ctx q → Course (EvolvesIn ctx) q (next L) fun _ q' =>
      Locals.Inside q'.1.types q.2.locals q'.2.locals) :
    Course (EvolvesIn ctx) p (do
      let before ← locals
      let a ← x
      let bound := bound.getD (← locals)
      if a ≠ .never then
        let _ ← y
      if (← locals) = before then orNilExcept bound
      else next bound) fun _ q => Locals.Inside q.1.types p.2.locals q.2.locals := by
  refine .locals ((hx p h).bind fun a p₁ h₁ ha => .locals ?_)
  have rest (q : State × Scope) (hq : Fine ctx q) (hle : p.1.types ≤ q.1.types)
      (hin : Locals.Inside q.1.types p.2.locals q.2.locals) :
      Course (EvolvesIn ctx) q (do
        if (← locals) = p.2.locals then orNilExcept (bound.getD p₁.2.locals)
        else next (bound.getD p₁.2.locals)) fun _ q' =>
          Locals.Inside q'.1.types p.2.locals q'.2.locals := by
    refine .locals ?_
    split
    · exact (orNilExcept_course hq _).mono fun _ q' h' hin' => (hin.mono h'.types).trans hin'
    · exact (hnext _ q hq).mono fun _ q' h' hin' => (hin.mono h'.types).trans hin'
  dsimp only
  split
  · refine (hy p₁ h₁.fine).bind fun b p₂ h₂ hb => ?_
    exact rest p₂ h₂.fine (le_trans h₁.types h₂.types) ((ha.locals.mono h₂.types).trans hb.locals)
  · exact rest p₁ h₁.fine h₁.types ha.locals

theorem inferLoop_course (site : Site) (hx : Widening ctx x) (hy : Widening ctx y) (left : Nat)
    (bound : Option Locals) (h : Fine ctx p) :
    Course (EvolvesIn ctx) p (inferLoop ctx site x y left bound) fun _ q =>
      Locals.Inside q.1.types p.2.locals q.2.locals := by
  induction left generalizing p bound with
  | zero =>
    rw [World.inferLoop_zero]
    refine round_course h hx hy bound (fun _ => throw _) fun _ q hq => ?_
    exact .throw (.refl hq)
  | succ left ih =>
    rw [World.inferLoop_succ]
    exact round_course h hx hy bound (fun L => inferLoop ctx site x y left (some L))
      fun L q hq => ih (some L) hq

/-- What is done with some arguments, if all of them have values. -/
theorem withArgs_course {as : InferIn (Option (List TypeId))} {f : List TypeId → InferIn TypeId}
    {L : Locals} (has : Course (EvolvesIn ctx) p as fun r q =>
      (∀ bs, r = some bs → ∀ b ∈ bs, q.1.types.Has b) ∧ Locals.Inside q.1.types L q.2.locals)
    (hf : ∀ bs q, EvolvesIn ctx p q → (∀ b ∈ bs, q.1.types.Has b) →
      Course (EvolvesIn ctx) q (f bs) (Finds q.2.locals)) :
    Course (EvolvesIn ctx) p (do
      match ← as with
      | none => return .never
      | some bs => f bs) (Finds L) := by
  refine has.bind fun r p₁ h₁ hr => ?_
  obtain ⟨hbs, hin⟩ := hr
  cases r with
  | none => exact .pure (.refl h₁.fine) ⟨h₁.fine.state.types.has_never, hin⟩
  | some bs =>
    refine (hf bs p₁ h₁ (hbs bs rfl)).mono fun b q hq hb => ⟨hb.has, ?_⟩
    exact (hin.mono hq.types).trans hb.locals

section
set_option linter.unusedSectionVars false
variable (hv : Visits ctx visit)
include hv

mutual

/-- Typing a term finds a type, and widens locals. -/
theorem inferTerm_course : ∀ t : Term, Widening ctx (inferTerm ctx visit t)
  | .nil site, p, h | .bool site _, p, h | .int site _, p, h | .float site _, p, h => by
    simp only [inferTerm]
    exact recorded_course site (finds_pure h (h.state.types.has_initial (by decide)))
  | .self site, p, h => by
    simp only [inferTerm]
    exact recorded_course site (.scope (finds_pure h (h.scope.has_self h.state.types)))
  | .var site n, p, h => by
    simp only [inferTerm]
    exact recorded_course site (.local? (finds_pure h
      (h.scope.locals.getD h.state.types.has_nil n)))
  | .assign site n value, p, h => by
    simp only [inferTerm]
    refine recorded_course site ((inferTerm_course value p h).bind fun a p₁ h₁ ha => ?_)
    refine (assignLocal_course h₁.fine n ha.has).bind fun _ p₂ h₂ hin => ?_
    exact .pure (.refl h₂.fine) ⟨ha.has.mono h₂.types, (ha.locals.mono h₂.types).trans hin⟩
  | .ivar site n, p, h => by
    simp only [inferTerm]
    exact recorded_course site (readIvar_course h n)
  | .setIvar site n value, p, h => by
    simp only [inferTerm]
    refine recorded_course site ((inferTerm_course value p h).bind fun a p₁ h₁ ha => ?_)
    refine (assignIvar_course h₁.fine n ha.has).bind fun _ p₂ h₂ hS => ?_
    refine .pure (.refl h₂.fine) ⟨ha.has.mono h₂.types, ?_⟩
    rw [hS]
    exact ha.locals.mono h₂.types
  | .const site n, p, h => by
    simp only [inferTerm]
    exact recorded_course site (inferConst_course h site n)
  | .call site receiver method args, p, h => by
    simp only [inferTerm]
    refine recorded_course site (followed_course h (inferTerm_course receiver)
      fun a q hq ha => withArgs_course (inferArgs_course args q hq) fun as q' h' has => ?_)
    have hr : ∀ b ∈ some a, q'.1.types.Has b := by
      intro b hb
      cases hb
      exact ha.mono h'.types
    exact inferCallAt_course hv h'.fine site hr has method
  | .send site method args, p, h => by
    simp only [inferTerm]
    exact recorded_course site (withArgs_course (inferArgs_course args p h) fun as q hq has =>
      inferCallAt_course hv hq.fine site (fun _ hb => by cases hb) has method)
  | .ifThen site test yes, p, h => by
    simp only [inferTerm]
    refine recorded_course site (followed_course h (inferTerm_course test)
      fun a q hq _ => .locals ((narrowing_course hq test (inferTerm_course yes)).bind
        fun b q₁ h₁ hb => ?_))
    exact joining_course h₁.fine (hq.scope.locals.mono h₁.types) hb.locals hb.has
      fun q₂ h₂ => finds_pure h₂ h₂.state.types.has_nil
  | .ifElse site test yes no, p, h => by
    simp only [inferTerm]
    refine recorded_course site (followed_course h (inferTerm_course test)
      fun a q hq _ => .locals ((narrowing_course hq test (inferTerm_course yes)).bind
        fun b q₁ h₁ hb => ?_))
    exact joining_course h₁.fine (hq.scope.locals.mono h₁.types) hb.locals hb.has
      (inferTerm_course no)
  | .loop site test body, p, h => by
    simp only [inferTerm]
    refine recorded_course site ((inferLoop_course site (inferTerm_course test)
      (inferTerm_course body) _ none h).bind fun _ q hq hin => ?_)
    exact .pure (.refl hq.fine) ⟨hq.fine.state.types.has_nil, hin⟩
  | .andAlso site left right, p, h | .orElse site left right, p, h => by
    simp only [inferTerm]
    exact recorded_course site
      (connective_course h (inferTerm_course left) (inferTerm_course right))
  | .ret site, p, h => by
    simp only [inferTerm]
    exact recorded_course site (returned_course h h.state.types.has_nil h.scope.locals.refl)
  | .retValue site value, p, h => by
    simp only [inferTerm]
    exact recorded_course site ((inferTerm_course value p h).bind fun a p₁ h₁ ha =>
      returned_course h₁.fine ha.has ha.locals)
  | .block site stmts, p, h => by
    simp only [inferTerm]
    exact recorded_course site (inferStmts_course stmts .nil p h h.state.types.has_nil)
  | .primitive site op args, p, h => by
    simp only [inferTerm]
    exact recorded_course site (withArgs_course (inferArgs_course args p h) fun as q hq _ =>
      inferPrimitive_course hq.fine site op as)

theorem inferArgs_course : ∀ (ts : List Term) (p : State × Scope), Fine ctx p →
    Course (EvolvesIn ctx) p (inferArgs ctx visit ts) fun r q =>
      (∀ as, r = some as → ∀ a ∈ as, q.1.types.Has a) ∧
        Locals.Inside q.1.types p.2.locals q.2.locals
  | [], p, h => by
    simp only [inferArgs]
    exact .pure (.refl h) ⟨fun as has => by cases has; exact nofun, h.scope.locals.refl⟩
  | t :: ts, p, h => by
    simp only [inferArgs]
    refine (inferTerm_course t p h).bind fun a p₁ h₁ ha => ?_
    split
    · exact .pure (.refl h₁.fine) ⟨nofun, ha.locals⟩
    · refine (inferArgs_course ts p₁ h₁.fine).bind fun r p₂ h₂ hr => ?_
      refine .pure (.refl h₂.fine) ⟨fun as has b hb => ?_, (ha.locals.mono h₂.types).trans hr.2⟩
      obtain ⟨bs, hbs, rfl⟩ := Option.map_eq_some_iff.1 has
      obtain rfl | hb := List.mem_cons.1 hb
      · exact ha.has.mono h₂.types
      · exact hr.1 bs hbs b hb

theorem inferStmts_course : ∀ (ts : List Term) (last : TypeId) (p : State × Scope), Fine ctx p →
    p.1.types.Has last → Course (EvolvesIn ctx) p (inferStmts ctx visit last ts) (Finds p.2.locals)
  | [], last, p, h, hlast => by
    simp only [inferStmts]
    exact finds_pure h hlast
  | t :: ts, last, p, h, _ => by
    simp only [inferStmts]
    refine (inferTerm_course t p h).bind fun a p₁ h₁ ha => ?_
    split
    · exact .pure (.refl h₁.fine) ⟨h₁.fine.state.types.has_never, ha.locals⟩
    · refine (inferStmts_course ts a p₁ h₁.fine ha.has).mono fun b q hq hb => ⟨hb.has, ?_⟩
      exact (ha.locals.mono hq.types).trans hb.locals

end

end

end InferIn

end Multimethod
