import Multimethod.Proofs.Machine.Unit

/-!
# Steps keep configurations sound

Each step goes from a sound configuration to a sound one, one lemma for each function of the machine
(`Basis.step_sound`). So whatever a run reaches from its start is sound (`Basis.run_sound`).
-/

namespace Multimethod.Machine

open Inference TypeTable

@[simp] theorem inDefault_cons {k : Kont} {ks : List Kont} :
    InDefault (k :: ks) ↔ k.isDefault = true ∨ InDefault ks := by
  simp [InDefault]

@[simp] theorem not_inDefault_nil : ¬ InDefault [] := by simp [InDefault]

namespace Basis

variable {B : Basis} {cs : List ClassId} {U : Scope} {R a b : TypeId} {c : Config}
  {L L' : Locals} {t : Term} {ts : List Term} {v : Value}

theorem fine_cons {k : Kont} {ks : List Kont} (hk : k.isDefault = false) :
    B.Fine (k :: ks) = B.Fine ks := by
  funext u
  simp [Fine, hk]

/-! ## Evaluating terms -/

section
variable (h : B.Around cs U R c) (hf : B.Fits cs c.activation.locals L)
include h hf

/-- The value of a local, of the awaited type. -/
theorem local_sound {id : ExprId} {n : Name} (hn : c.activation.locals[n]?.getD .nil = v)
    (hv : B.Of cs v a) (hr : B.Recorded U id a)
    (hw : B.Waits cs c.activation.unit U R c.activation.konts a L (some n)) :
    B.Sound (c.run (.value id v)) :=
  ⟨cs, U, R, ⟨h.objects, h.heap, h.runs, h.callers⟩, a, L, some n, hf, hv, hr,
    fun m hm => by cases hm; exact hn, hw⟩

/-- A value of the awaited type. -/
theorem value_sound {id : ExprId} (hv : B.Of cs v a) (hr : B.Recorded U id a)
    (hw : B.Waits cs c.activation.unit U R c.activation.konts a L none) :
    B.Sound (c.run (.value id v)) :=
  ⟨cs, U, R, ⟨h.objects, h.heap, h.runs, h.callers⟩, a, L, none, hf, hv, hr,
    fun _ hm => (nomatch hm), hw⟩

/-- A term of the awaited type, evaluated before some more work. -/
theorem push_sound {k : Kont} (ht : B.W.Typed B.τ U t L a L')
    (hk : k.isDefault = false) (he : t.Every (B.Fine c.activation.konts))
    (hw : B.Waits cs c.activation.unit U R (k :: c.activation.konts) a L' (InferIn.tested? t)) :
    B.Sound (c.push k (.eval t)) :=
  ⟨cs, U, R, ⟨h.objects, h.heap, h.runs, h.callers⟩, L, a, L', hf, ht,
    .inl (show t.Every (B.Fine (k :: c.activation.konts)) by rw [fine_cons hk]; exact he), hw⟩

/-- Evaluating the arguments of a call, after some that have been evaluated. -/
theorem nextArgument_sound {site : Site} {receiver : Option Value} {k : Name}
    {done : List Value} {r : Option TypeId} {ds : List TypeId} {as : Option (List TypeId)}
    (hcall : B.Calling cs U site.id k receiver r) (hds : B.AllOf cs done ds)
    (hts : Term.EveryOf (B.Fine c.activation.konts) ts) (has : B.W.TypedArgs B.τ U ts L as L')
    (hg : B.Gives U site.id k r (as.map (ds ++ ·)) b) (hr : B.Recorded U site.id b)
    (hw : B.Waits cs c.activation.unit U R c.activation.konts b L' none) :
    B.Sound (nextArgument c site receiver k done ts) := by
  cases ts with
  | nil =>
    obtain ⟨rfl, rfl⟩ := has
    rw [Option.map_some, List.append_nil] at hg
    exact ⟨cs, U, R, ⟨h.objects, h.heap, h.runs, h.callers⟩, r, ds, b, _, hf, hcall, hds, hg, hr,
      hw⟩
  | cons t ts =>
    obtain ⟨a, L₁, ht, hrest⟩ := has
    refine push_sound h hf ht rfl hts.1 ?_
    rcases hrest with ⟨ha, -, -⟩ | ⟨-, as₁, has, rfl⟩
    · exact .inl ha
    · rw [Option.map_map] at hg
      exact .inr ⟨hts.2, r, ds, as₁, b, L', hcall, hds, has, hg, hr, hw⟩

/-- Evaluating the operands of a primitive operation, after some that have been evaluated. -/
theorem nextOperand_sound {site : Site} {op : Primitive} {done : List Value}
    {ds : List TypeId} {as : Option (List TypeId)} (hds : B.AllOf cs done ds)
    (hts : Term.EveryOf (B.Fine c.activation.konts) ts) (has : B.W.TypedArgs B.τ U ts L as L')
    (hg : B.Applied op (as.map (ds ++ ·)) b) (hr : B.Recorded U site.id b)
    (hw : B.Waits cs c.activation.unit U R c.activation.konts b L' none) :
    B.Sound (nextOperand c site op done ts) := by
  cases ts with
  | nil =>
    obtain ⟨rfl, rfl⟩ := has
    rw [Option.map_some, List.append_nil] at hg
    exact ⟨cs, U, R, ⟨h.objects, h.heap, h.runs, h.callers⟩, ds, b, _, hf, hds, hg.1, hg.2, hr, hw⟩
  | cons t ts =>
    obtain ⟨a, L₁, ht, hrest⟩ := has
    refine push_sound h hf ht rfl hts.1 ?_
    rcases hrest with ⟨ha, -, -⟩ | ⟨-, as₁, has, rfl⟩
    · exact .inl ha
    · rw [Option.map_map] at hg
      exact .inr ⟨hts.2, ds, as₁, b, L', hds, has, hg, hr, hw⟩

/-- Going on with the statements of a block. -/
theorem nextStmt_sound {id : ExprId} {last : TypeId} (hv : B.Of cs v last)
    (hts : Term.EveryOf (B.Fine c.activation.konts) ts)
    (ht : B.W.TypedStmts B.τ U last ts L b L') (hr : B.Recorded U id b)
    (hw : B.Waits cs c.activation.unit U R c.activation.konts b L' none) :
    B.Sound (nextStmt c id v ts) := by
  cases ts with
  | nil =>
    obtain ⟨rfl, rfl⟩ := ht
    exact value_sound h hf hv hr hw
  | cons t ts =>
    obtain ⟨a, L₁, ht, ⟨ha, -, -⟩ | ⟨-, hrest⟩⟩ := ht
    · exact push_sound h hf ht rfl hts.1 (.inl ha)
    · exact push_sound h hf ht rfl hts.1 (.inr ⟨hts.2, b, L', hrest, hr, hw⟩)

/-- Beginning a round of a loop. -/
theorem loop_sound {id : ExprId} {test body : Term} (htest : test.Every (B.Fine c.activation.konts))
    (hbody : body.Every (B.Fine c.activation.konts)) (hl : B.W.Loops B.τ U test body L L')
    (hr : B.Recorded U id .nil)
    (hw : B.Waits cs c.activation.unit U R c.activation.konts .nil L' none) :
    B.Sound (c.push (.loopTest id test body) (.eval test)) := by
  obtain ⟨a, L₁, ht, hrest⟩ := hl.unroll B.ok.types
  refine push_sound h hf ht rfl htest ?_
  by_cases ha : a = .never
  · exact .inl ha
  · obtain ⟨hreads, b, L₂, htb, hl⟩ := hrest ha
    exact .inr ⟨htest, hbody, hr, b, L₂, L', hreads, htb, hl, hw⟩

/-- Beginning to evaluate a term of the awaited type. -/
theorem eval_sound (ht : B.W.Typed B.τ U t L a L') (he : B.Ready U c.activation.konts t L)
    (hw : B.Waits cs c.activation.unit U R c.activation.konts a L' (InferIn.tested? t)) :
    B.Sound (eval B.program c t) := by
  have H := B.ok.types
  have hrec : B.Recorded U t.id a := ht.recorded
  -- Only a primitive operation may be more than its parts allow.
  have every (hop : ∀ site op ts, t ≠ .primitive site op ts) :
      t.Every (B.Fine c.activation.konts) :=
    he.resolve_right fun h => by
      obtain ⟨site, op, ts, h, -⟩ := h
      exact hop site op ts h
  cases t with
  | nil | bool | int | float =>
    simp only [World.Typed] at ht
    obtain ⟨-, rfl, rfl⟩ := ht
    first
      | exact value_sound h hf (.nil H) hrec hw
      | exact value_sound h hf (.bool H _) hrec hw
      | exact value_sound h hf (.int H _) hrec hw
      | exact value_sound h hf (.float H _) hrec hw
  | self =>
    simp only [World.Typed] at ht
    obtain ⟨-, rfl, rfl⟩ := ht
    exact value_sound h hf h.self hrec hw
  | var site n =>
    simp only [World.Typed] at ht
    obtain ⟨-, rfl, rfl⟩ := ht
    exact local_sound h hf rfl (hf n) hrec hw
  | assign site n value =>
    have hev := every (by simp)
    simp only [Term.Every] at hev
    simp only [World.Typed] at ht
    obtain ⟨-, L₁, ht, ha⟩ := ht
    exact push_sound h hf ht rfl hev.2 (.inr ⟨hrec, L', ha, hw⟩)
  | ivar site n =>
    simp only [World.Typed] at ht
    obtain ⟨-, rfl, ht⟩ := ht
    exact value_sound h hf (h.ivar ht) hrec hw
  | setIvar site n value =>
    have hev := every (by simp)
    simp only [Term.Every] at hev
    simp only [World.Typed] at ht
    obtain ⟨-, ht, ha⟩ := ht
    refine push_sound h hf ht rfl hev.2 ?_
    by_cases hn : a = .never
    · exact .inl hn
    · exact .inr ⟨hrec, fun c hc => ha c hc hn, hw⟩
  | const site n =>
    have hev := (every (by simp)).self
    simp only [World.Typed] at ht
    obtain ⟨-, rfl, d, hd, ha⟩ := ht
    simp only [eval, B.find?_eq, hd]
    exact value_sound h hf (.cls (B.const _ _ _ hev.1 hd) ha) hrec hw
  | call site receiver k args =>
    have hev := every (by simp)
    have hu := (B.known _ hev.self.1).2 k rfl
    simp only [Term.Every] at hev
    simp only [World.Typed] at ht
    obtain ⟨-, b, L₁, ht, ⟨hb, -, -⟩ | ⟨-, as, has, hg⟩⟩ := ht
    · exact push_sound h hf ht rfl hev.2.1 (.inl hb)
    · refine push_sound h hf ht rfl hev.2.1
        (.inr ⟨hev.2.2, ⟨_, hu, rfl⟩, as, a, L', has, ?_, hrec, hw⟩)
      cases as <;> exact hg
  | send site k args =>
    have hev := every (by simp)
    have hu := (B.known _ hev.self.1).2 k rfl
    simp only [Term.Every] at hev
    simp only [World.Typed] at ht
    obtain ⟨-, as, has, hg⟩ := ht
    refine nextArgument_sound h hf ⟨_, hu, rfl, ⟨_, _, rfl⟩, rfl⟩ (show B.AllOf cs [] [] from .nil)
      hev.2 has ?_ hrec hw
    cases as <;> exact hg
  | ifThen site test yes =>
    have hev := every (by simp)
    simp only [Term.Every] at hev
    simp only [World.Typed] at ht
    obtain ⟨-, b, L₁, ht, ⟨hb, -, -⟩ | ⟨-, c', L₂, hy, hL, hj⟩⟩ := ht
    · exact push_sound h hf ht rfl hev.2.1 (.inl hb)
    · exact push_sound h hf ht rfl hev.2.1 (.inr ⟨hev.2.2, by simp, test, c', L₂, .nil, L₁, a, L',
        fun n hn => hn, hy, ⟨rfl, rfl⟩, hL, hj, hrec, hw⟩)
  | ifElse site test yes no =>
    have hev := every (by simp)
    simp only [Term.Every] at hev
    simp only [World.Typed] at ht
    obtain ⟨-, b, L₁, ht, ⟨hb, -, -⟩ | ⟨-, c', L₂, d, L₃, hy, hn, hL, hj⟩⟩ := ht
    · exact push_sound h hf ht rfl hev.2.1 (.inl hb)
    · refine push_sound h hf ht rfl hev.2.1 (.inr ⟨hev.2.2.1, fun u hu => ?_, test, c', L₂, d, L₃,
        a, L', fun n hn => hn, hy, hn, hL, hj, hrec, hw⟩)
      cases hu
      exact hev.2.2.2
  | loop site test body =>
    have hev := every (by simp)
    simp only [Term.Every] at hev
    simp only [World.Typed] at ht
    obtain ⟨-, rfl, hl⟩ := ht
    exact loop_sound h hf hev.2.1 hev.2.2 ⟨none, by simp, hl⟩ hrec hw
  | andAlso site left right | orElse site left right =>
    have hev := every (by simp)
    simp only [Term.Every] at hev
    simp only [World.Typed] at ht
    obtain ⟨-, b, L₁, ht, ⟨hb, -, -⟩ | ⟨-, c', L₂, hr, hor, hj⟩⟩ := ht
    · exact push_sound h hf ht rfl hev.2.1 (.inl hb)
    · exact push_sound h hf ht rfl hev.2.1 (.inr ⟨hev.2.2, c', L₂, a, L', hr, hor, hj, hrec, hw⟩)
  | ret site =>
    have hev := (every (by simp)).self
    simp only [World.Typed] at ht
    obtain ⟨-, -, -, hin⟩ := ht
    exact ⟨cs, U, R, ⟨h.objects, h.heap, h.runs, h.callers⟩, (Value.Of.nil H).inside hin,
      fun hd => hev.2 hd trivial⟩
  | retValue site value =>
    have hev := every (by simp)
    have hself := hev.self
    simp only [Term.Every] at hev
    simp only [World.Typed] at ht
    obtain ⟨-, -, b, ht, hin⟩ := ht
    exact push_sound h hf ht rfl hev.2 (.inr ⟨hin, fun hd => hself.2 hd trivial⟩)
  | block site stmts =>
    have hev := every (by simp)
    simp only [Term.Every] at hev
    simp only [World.Typed] at ht
    exact nextStmt_sound h hf (.nil H) hev.2 ht.2 hrec hw
  | primitive site op args =>
    simp only [World.Typed] at ht
    obtain ⟨-, as, has, hg⟩ := ht
    have hargs : Term.EveryOf (B.Fine c.activation.konts) args ∧ ∀ as',
        as = some as' → B.Operands op as' := by
      rcases he with he | ⟨site', op', ts, ht', hts, hop⟩
      · have hself := he.self.1
        simp only [Term.Every] at he
        refine ⟨he.2, fun as' has' => B.operands _ _ _ hself _ ?_⟩
        subst has'
        exact has.length_eq
      · cases ht'
        exact ⟨hts, fun as' has' => hop as' L' (has' ▸ has)⟩
    refine nextOperand_sound h hf (show B.AllOf cs [] [] from .nil) hargs.1 has ?_ hrec hw
    cases as with
    | none => exact hg
    | some as => exact ⟨hg, hargs.2 as rfl⟩

end

/-! ## Using values -/

section
variable (h : B.Around cs U R c) (hf : B.Fits cs c.activation.locals L) (hv : B.Of cs v a)
include h hf hv

/-- The condition of a branch tells of a local that it is not `nil`. -/
theorem choose_sound {id : ExprId} {yes : Term} {no : Option Term} {q : Option Name}
    (hq : ∀ n ∈ q, c.activation.locals[n]?.getD .nil = v)
    (hw : B.Waits cs c.activation.unit U R (.choose id yes no :: c.activation.konts) a L q) :
    B.Sound (resume c v (.choose id yes no)) := by
  have H := B.ok.types
  obtain ⟨hyes, hno, test, c', L₂, d, L₃, b, L', htest, hy, hn, hL, hj, hr, hrest⟩ :=
    hw.resolve_left (hv.ne_never H)
  simp only [resume]
  cases ht : v.truthy with
  | true =>
    -- After the branch, the locals are those of its end, with the tested one widened.
    have next {L₁ : Locals} (hreads : c' ≠ .never → Locals.Reads B.τ.types L₁ L₂) :
        B.Waits cs c.activation.unit U R (.same id :: c.activation.konts) c' L₁
          (InferIn.tested? yes) := by
      by_cases hc' : c' = .never
      · exact .inl hc'
      · exact .inr ⟨b, L', hj.left, (hreads hc').trans (hL.reads_left (by simpa using hc')), hr,
          hrest⟩
    unfold World.Narrows at hy
    split at hy
    · exact push_sound h hf hy rfl hyes (next fun _ => .refl)
    · rename_i n hn
      obtain ⟨narrow, L₁, w, hdrop, hy, hw', rfl⟩ := hy
      have hlocal : (c.activation.locals[n]?.getD .nil).Of B.τ.types B.Occurs cs narrow :=
        (hf n).dropsNil (by rw [hq n (htest n hn), ht]) B.nil H hdrop
      refine push_sound h (hf.retype hlocal) hy rfl hyes (next fun _ k m hm => ?_)
      rw [Std.ExtTreeMap.getElem?_insert]
      split
      · rename_i hnk
        rw [← Std.compare_eq_iff_eq.1 hnk] at hm
        obtain ⟨e, he, -⟩ := hy.grows n narrow (by simp)
        rw [he, Option.getD_some] at hm hw'
        exact hw'.right.2.2 m hm
      · exact hm
  | false =>
    cases no with
    | none =>
      obtain ⟨rfl, rfl⟩ := hn
      exact value_sound h (hf.reads (hL.reads_right rfl)) ((Value.Of.nil H).inside hj.right) hr hrest
    | some no =>
      refine push_sound h hf hn rfl (hno no rfl) ?_
      by_cases hd : d = .never
      · exact .inl hd
      · exact .inr ⟨b, L', hj.right, hL.reads_right (by simpa using hd), hr, hrest⟩

/-- Putting a value to its use. -/
theorem resume_sound {k : Kont} {q : Option Name}
    (hq : ∀ n ∈ q, c.activation.locals[n]?.getD .nil = v)
    (hw : B.Waits cs c.activation.unit U R (k :: c.activation.konts) a L q) :
    B.Sound (resume c v k) := by
  have H := B.ok.types
  have hne := hv.ne_never H
  cases k with
  | assign id n =>
    obtain ⟨hr, L', ha, hw⟩ := hw.resolve_left hne
    have h' : B.Around cs U R (c.setLocal n v) := ⟨h.objects, h.heap, h.runs, h.callers⟩
    refine local_sound h' (hf.assign H ha hv) ?_ hv hr hw
    rw [show (c.setLocal n v).activation.locals = c.activation.locals.insert n v from rfl]
    simp
  | setIvar id n =>
    obtain ⟨hr, ha, hw⟩ := hw.resolve_left hne
    obtain ⟨h', hact⟩ := h.setIvar (n := n) hv ha
    exact value_sound h' (by rw [hact]; exact hf) hv hr (by rw [hact]; exact hw)
  | receiver site k args =>
    obtain ⟨hts, ⟨u, hu, hk⟩, as, b, L', has, hg, hr, hw⟩ := hw.resolve_left hne
    refine nextArgument_sound h hf ⟨u, hu, hk, a, rfl, hv⟩ (show B.AllOf cs [] [] from .nil)
      hts has ?_ hr hw
    cases as <;> exact hg
  | argument site receiver k done todo =>
    obtain ⟨hts, r, ds, as, b, L', hcall, hds, has, hg, hr, hw⟩ := hw.resolve_left hne
    refine nextArgument_sound h hf hcall (show B.AllOf cs (done ++ [v]) (ds ++ [a]) from
      List.rel_append hds (.cons hv .nil)) hts has ?_ hr hw
    simpa using hg
  | choose id yes no => exact choose_sound h hf hv hq hw
  | loopTest id test body =>
    obtain ⟨htest, hbody, hr, b, L₂, L', hreads, htb, hl, hw⟩ := hw.resolve_left hne
    simp only [resume]
    split
    · exact push_sound h hf htb rfl hbody (.inr ⟨htest, hbody, hr, L', hl, hw⟩)
    · exact value_sound h (hf.reads hreads) (.nil H) hr hw
  | loopBody id test body =>
    obtain ⟨htest, hbody, hr, L', hl, hw⟩ := hw.resolve_left hne
    exact loop_sound h hf htest hbody hl hr hw
  | andAlso id right | orElse id right =>
    obtain ⟨hright, c', L₂, b, L', ht, hor, hj, hr, hw⟩ := hw.resolve_left hne
    simp only [resume]
    have evaluated : B.Sound (c.push (.same id) (.eval right)) :=
      push_sound h hf ht rfl hright (.inr ⟨b, L', hj.right, hor.reads H, hr, hw⟩)
    have skipped : B.Sound (c.run (.value id v)) :=
      value_sound h (hf.reads (hor.reads_skipped ht.grows H)) (hv.inside hj.left) hr hw
    split
    · first | exact evaluated | exact skipped
    · first | exact skipped | exact evaluated
  | ret =>
    obtain ⟨hin, hd⟩ := hw.resolve_left hne
    exact ⟨cs, U, R, ⟨h.objects, h.heap, h.runs, h.callers⟩, hv.inside hin, hd⟩
  | stmt id todo =>
    obtain ⟨hts, b, L', ht, hr, hw⟩ := hw.resolve_left hne
    exact nextStmt_sound h hf hv hts ht hr hw
  | operand site op done todo =>
    obtain ⟨hts, ds, as, b, L', hds, has, hg, hr, hw⟩ := hw.resolve_left hne
    refine nextOperand_sound h hf (show B.AllOf cs (done ++ [v]) (ds ++ [a]) from
      List.rel_append hds (.cons hv .nil)) hts has ?_ hr hw
    simpa using hg
  | same id =>
    obtain ⟨b, L', hin, hreads, hr, hw⟩ := hw.resolve_left hne
    exact value_sound h (hf.reads hreads) (hv.inside hin) hr hw
  | default p rest code =>
    obtain ⟨hks, S, rfl, hb⟩ := hw.resolve_left hne
    exact ⟨cs, U, R, ⟨h.objects, h.heap, h.runs, h.callers⟩, hks, S.bind p.name a,
      hf.insert hv, hb⟩
  | top todo =>
    obtain ⟨hks, hunit, hts, b, L', ht, hin⟩ := hw.resolve_left hne
    exact ⟨cs, U, R, ⟨h.objects, h.heap, h.runs, h.callers⟩, hks, hunit, hts, a, L, b, L', hf, hv,
      ht, hin⟩

end

/-- Leaving the running body with a value of the type that it returns. -/
theorem leave_sound (h : B.Around cs U R c) (hv : B.Of cs v R) : B.Sound (leave c v) := by
  have hcallers := h.callers
  unfold leave
  cases hc : c.callers with
  | nil =>
    rw [hc] at hcallers
    cases hcallers
    exact ⟨cs, U, _, ⟨h.objects, h.heap, h.runs, h.callers⟩, hv⟩
  | cons caller callers =>
    rw [hc] at hcallers
    obtain ⟨U', R', L, a, hr, hf, hrec, ho, hw, hcallers⟩ := hcallers
    refine ⟨cs, U', R', ⟨h.objects, h.heap, hr, hcallers⟩, a, L, none, hf, ?_, hrec,
      fun _ hm => (nomatch hm), hw⟩
    cases hobject : caller.object with
    | none =>
      rw [hobject] at ho
      exact hv.inside ho
    | some o =>
      rw [hobject] at ho
      exact ho

/-- Leaving the running body because of an error that may occur. -/
theorem abandon_sound (h : B.Around cs U R c) {e : RunError} (he : B.Fails e.cause) :
    B.Sound (abandon c e) := by
  have hcallers := h.callers
  unfold abandon
  cases hc : c.callers with
  | nil => exact ⟨cs, U, R, ⟨h.objects, h.heap, h.runs, h.callers⟩, he⟩
  | cons caller callers =>
    rw [hc] at hcallers
    obtain ⟨U', R', L, a, hr, -, -, -, -, hcallers⟩ := hcallers
    exact ⟨cs, U', R', ⟨h.objects, h.heap, hr, hcallers⟩, he⟩

/-! ## Calls -/

theorem fail_sound (h : B.Around cs U R c) {cause : RunError.Cause} {span : Span}
    (hc : B.Fails cause) : B.Sound (c.fail cause span) :=
  ⟨cs, U, R, ⟨h.objects, h.heap, h.runs, h.callers⟩, hc⟩

section
variable {e : ExprId} {k : Name} {args : List Value} {self : Option Value} {r : Option TypeId}
  {ms : List TypeId}

/-- A specialization that a row of a running body leads to has been evaluated. -/
theorem Finds.spec (h : B.Around cs U R c) {callee : Callee}
    (hf : B.Finds cs U e k a args callee self r ms) {s : SpecId}
    (hs : callee = .specialization s ∨ ∃ d, callee = .new d (some s)) :
    ∃ i, B.τ.specs.get? s = some i ∧ i.donePass = some B.τ.pass := by
  have hr := h.runs.reached _ _ _ _ hf.row
  have : ∃ i, B.τ.specs.get? s = some i ∧ (i.stage ≠ .idle ∨ i.donePass = some B.τ.pass) := by
    rcases hs with rfl | ⟨d, rfl⟩ <;> exact hr
  obtain ⟨i, hi, hne | hd⟩ := this
  · exact absurd (B.idle s i hi) hne
  · exact ⟨i, hi, hd⟩

/-- Running a specialization. -/
theorem invoke_sound (h : B.Around cs U R c) (hfits : B.Fits cs c.activation.locals L)
    {limit : Nat} {site : Site} {s : SpecId} {i : Specialization} {object : Option Value}
    (hi : B.τ.specs.get? s = some i) (hd : i.donePass = some B.τ.pass)
    (hp : B.W.Picked B.τ i.key) (hself : B.SelfOf cs self i.key.receiver)
    (hargs : B.AllOf cs args i.key.args)
    (ho : match object with
      | none => B.τ.types.Inside i.returnType a
      | some o => B.Of cs o a)
    (hr : B.Recorded U site.id a)
    (hw : B.Waits cs c.activation.unit U R c.activation.konts a L none) :
    B.Sound (invoke B.program limit c site s self args object) := by
  obtain ⟨m, U', S', hc⟩ := B.checks s i hi hd
  obtain ⟨j, hj, hkey, -⟩ := B.grows.specs s i hi
  unfold invoke
  split
  · exact fail_sound h (.inl ⟨_, rfl⟩)
  · rw [B.specs_eq, hj, Option.bind_some, hkey, B.methods_eq, hc.method]
    refine ⟨cs, U', i.returnType, ⟨h.objects, h.heap,
      ⟨i, m, S', hi, hd, hc, rfl, by rw [hc.self]; exact hself⟩, ?_⟩, rfl,
      .opened B.τ.types i.key, .empty B.ok.types, s, i, m, [], S', rfl,
      { spec := hi, picked := hp, checked := hc, params := rfl, code := ?_, args := hargs,
        done := rfl, rest := hc.binds }⟩
    · exact ⟨U, R, L, a, h.runs, hfits, hr, ho, hw, h.callers⟩
    · rw [B.terms_eq]
      rfl

/-- A class whose class object is called occurs. -/
theorem Finds.occurs {callee : Callee} (hf : B.Finds cs U e k a args callee self r ms)
    {target : Target} {d : ClassId} (hp : B.W.registry.Picks B.τ.types k r ms target)
    (ht : target = .allocate d ∨ target = .new d) : B.Occurs d := by
  have hsuits := hp.suits B.ok.types B.ok.described
    (fun m hm => has_of_isMember (hf.selfMember m hm))
    fun m hm => has_of_isMember (hf.argMembers m hm)
  obtain ⟨m, rfl, hm⟩ : ∃ m, r = some m ∧ B.τ.types.shape m = .classObject d := by
    rcases ht with rfl | rfl <;> exact hsuits
  have hself := hf.self
  cases self with
  | none => cases hself
  | some v =>
    obtain ⟨m', hm', hv⟩ := hself
    cases hm'
    have htype := hv.type?_of_isMember (hf.selfMember m rfl)
    cases Value.Of.eq_cls htype hm B.ok.types
    exact hv.1

/-- A fresh object is of the type of its class. -/
theorem allocate_around (h : B.Around cs U R c) {d : ClassId} (hd : B.Occurs d) :
    cs <+: cs ++ [d] ∧ B.Around (cs ++ [d]) U R { c with heap := (c.heap.allocate d).2 } ∧
      ∀ b, B.τ.types.shape b = .exact d → B.Of (cs ++ [d]) (c.heap.allocate d).1 b := by
  have hcs : cs <+: cs ++ [d] := List.prefix_append _ _
  refine ⟨hcs, ⟨h.objects.trans hcs, h.heap.allocate d, h.runs.mono hcs, h.callers.mono hcs⟩,
    fun b hb => .object ?_ hd hb⟩
  rw [h.heap.size, List.getElem?_append_right (le_refl _), Nat.sub_self]
  rfl

/-- Making a call. -/
theorem call_sound (h : B.Around cs U R c) (hfits : B.Fits cs c.activation.locals L)
    {limit : Nat} {site : Site} {receiver : Option Value} {as : List TypeId}
    (hcall : B.Calling cs U site.id k receiver r) (hargs : B.AllOf cs args as)
    (hcalls : B.W.Calls B.τ U site.id k r as a) (hr : B.Recorded U site.id a)
    (hw : B.Waits cs c.activation.unit U R c.activation.konts a L none) :
    B.Sound (call B.program limit c site receiver k args) := by
  have H := B.ok.types
  unfold call
  rcases lookUp_finds h hcall hargs hcalls with ⟨callee, self, r', ms, hl, hf⟩ | ⟨hl, hs⟩
  · rw [hl]
    obtain ⟨b, hb, hin⟩ := hf.answers
    have hleads := hf.leads
    -- A fresh object is the value of the call.
    have fresh {d : ClassId} (hd : B.Occurs d) (hb : B.τ.types.shape b = .exact d) :
        B.Sound (Config.run { c with heap := (c.heap.allocate d).2 }
          (.value site.id (c.heap.allocate d).1)) := by
      obtain ⟨hcs, h', ho⟩ := allocate_around h hd
      exact value_sound h' (hfits.mono hcs) ((ho b hb).inside hin) hr (hw.mono hcs)
    cases callee with
    | specialization s =>
      obtain ⟨m, hp, hfind⟩ := hleads
      obtain ⟨i, hi, hd⟩ := hf.spec h (.inl rfl)
      obtain ⟨j, hj, hkey⟩ := Specializations.find?_eq_some.1 hfind
      cases hi.symm.trans hj
      obtain ⟨j, hj, rfl⟩ := hb
      cases hi.symm.trans hj
      exact invoke_sound h hfits hi hd ⟨k, by rw [hkey]; exact hp⟩ (by rw [hkey]; exact hf.self)
        (by rw [hkey]; exact hf.args) hin hr hw
    | allocate d => exact fresh (hf.occurs hleads (.inl rfl)) hb
    | new d initializer =>
      have hd := hf.occurs hleads.1 (.inr rfl)
      cases initializer with
      | none => exact fresh hd hb
      | some s =>
        obtain ⟨-, o, ho, -, m, hp, hfind⟩ := hleads
        obtain ⟨i, hi, hdone⟩ := hf.spec h (.inr ⟨d, rfl⟩)
        obtain ⟨j, hj, hkey⟩ := Specializations.find?_eq_some.1 hfind
        cases hi.symm.trans hj
        obtain ⟨hcs, h', hof⟩ := allocate_around h hd
        show B.Sound (invoke B.program limit _ site s (some _) args (some _))
        exact invoke_sound h' (hfits.mono hcs) hi hdone ⟨_, by rw [hkey]; exact hp⟩
          ⟨o, by rw [hkey], hof o ho⟩ (by rw [hkey]; exact hf.args.mono hcs)
          ((hof b hb).inside hin) hr (hw.mono hcs)
  · rw [hl]
    exact fail_sound h (.inr (.inr hs))

end

/-! ## Binding parameters -/

theorem AllOf.head_drop {v : Value} {vs : List Value} {as : List TypeId} {j : Nat}
    (h : B.AllOf cs (v :: vs) (as.drop j)) :
    ∃ b, as[j]? = some b ∧ B.Of cs v b ∧ B.AllOf cs vs (as.drop (j + 1)) := by
  rw [← List.tail_drop, ← List.head?_drop]
  obtain ⟨b, bs, hv, hvs, hdrop⟩ := List.forall₂_cons_left_iff.1 h
  rw [hdrop]
  exact ⟨b, rfl, hv, hvs⟩

theorem AllOf.nil_drop {as : List TypeId} {j : Nat} (h : B.AllOf cs [] (as.drop j)) :
    as[j]? = none ∧ B.AllOf cs [] (as.drop (j + 1)) := by
  rw [← List.tail_drop, ← List.head?_drop, List.forall₂_nil_left_iff.1 h]
  exact ⟨rfl, .nil⟩

section
variable {S S' : Scope} {q : Param} {qs done : List Param} {args : List Value} {code : Term}
  {s : SpecId} {i : Specialization} {m : Method}

/-- How the next parameter is bound. Then it is among those that are. -/
theorem Bound.next (hb : B.Bound cs U S (q :: qs) args code s i m done S') :
    ∃ a S₁, (match i.key.args[done.length]?, q.default with
      | some b, _ => a = b ∧ S₁ = S
      | none, none => a = .nil ∧ S₁ = S
      | none, some d => B.W.Typed B.τ U (B.W.ctx.term d) S.locals a S₁.locals) ∧
      ∀ args', B.AllOf cs args' (i.key.args.drop (done.length + 1)) →
        B.Bound cs U (S₁.bind q.name a) qs args' code s i m (done ++ [q]) S' := by
  obtain ⟨a, S₁, hstep, hagain, hqs⟩ := hb.rest
  refine ⟨a, S₁, ?_, fun args' hargs' => { hb with
    params := by simp [hb.params]
    args := by simpa using hargs'
    done := World.binds_append.2 ⟨_, hb.done, ?_⟩
    rest := by simpa using hqs }⟩
  · cases hget : i.key.args[done.length]? <;> cases hd : q.default <;> rw [hget, hd] at hstep
    case none.some => exact hstep.1
    all_goals exact hstep
  · rw [Nat.zero_add]
    exact ⟨a, S₁, hstep, hagain, rfl⟩

/-- Once all parameters are bound, the body runs. -/
theorem body_sound (h : B.Around cs U R c) (hks : c.activation.konts = [])
    (hf : B.Fits cs c.activation.locals S.locals) (hunit : c.activation.unit = some s)
    (hb : B.Bound cs U S [] args code s i m done S') : B.Sound (c.run (.eval code)) := by
  have hS := hb.rest
  cases hS
  have hc := hb.checked
  obtain ⟨a, L', ht, hin⟩ := hc.typed
  have hR : R = i.returnType := by
    have hruns := h.runs
    rw [hunit] at hruns
    obtain ⟨i', -, -, hi', -, -, hR, -⟩ := hruns
    cases hb.spec.symm.trans hi'
    exact hR
  have hfine : B.Fine c.activation.konts = B.Allows := by
    funext u
    simp [Fine, hks]
  refine ⟨cs, U, R, ⟨h.objects, h.heap, h.runs, h.callers⟩, S.locals, a, L', hf, ?_, ?_, ?_⟩
  · rw [hb.code]; exact ht
  · show B.Ready U c.activation.konts code S.locals
    rw [Ready, hfine, hb.code]
    exact B.bodies s i m U S hb.spec hc hb.picked
  · show B.Waits cs c.activation.unit U R c.activation.konts a L' _
    rw [hks, hR]
    exact hin

end

/-- Binding the next parameter, or running the body. -/
theorem bind_sound (h : B.Around cs U R c) (hks : c.activation.konts = []) {S : Scope}
    (hf : B.Fits cs c.activation.locals S.locals) {params : List Param} {args : List Value}
    {code : Term} (hb : B.Binding cs c.activation.unit U S params args code) :
    B.Sound (bind B.program c code params args) := by
  obtain ⟨s, i, m, done, S', hunit, hb⟩ := hb
  cases params with
  | nil => exact body_sound h hks hf hunit hb
  | cons q qs =>
    obtain ⟨a, S₁, hstep, hnext⟩ := hb.next
    cases args with
    | cons v vs =>
      obtain ⟨b, hget, hv, hvs⟩ := hb.args.head_drop
      rw [hget] at hstep
      obtain ⟨rfl, rfl⟩ := hstep
      simp only [bind]
      exact ⟨cs, U, R, ⟨h.objects, h.heap, h.runs, h.callers⟩, hks, S₁.bind q.name a,
        hf.insert hv, s, i, m, _, S', hunit, hnext _ hvs⟩
    | nil =>
      obtain ⟨hget, hnone⟩ := hb.args.nil_drop
      rw [hget] at hstep
      have hbinding : B.Binding cs c.activation.unit U (S₁.bind q.name a) qs [] code :=
        ⟨s, i, m, _, S', hunit, hnext _ hnone⟩
      cases hd : q.default with
      | none =>
        rw [hd] at hstep
        obtain ⟨rfl, rfl⟩ := hstep
        simp only [bind, hd]
        exact ⟨cs, U, R, ⟨h.objects, h.heap, h.runs, h.callers⟩, hks, S₁.bind q.name .nil,
          hf.insert (.nil B.ok.types), hbinding⟩
      | some d =>
        rw [hd] at hstep
        simp only [bind, hd]
        have hq : q ∈ m.definition.params := by rw [hb.params]; simp
        refine ⟨cs, U, R, ⟨h.objects, h.heap, h.runs, h.callers⟩, S.locals, a, S₁.locals, hf, ?_,
          .inl ?_, .inr ⟨hks, S₁, rfl, hbinding⟩⟩
        · rw [B.terms_eq]
          exact hstep
        · rw [B.terms_eq]
          exact (B.defaults _ _ hb.checked.method q hq d hd).imp fun _ h => ⟨h.1, fun _ => h.2⟩

/-! ## Runs -/

/-- A step keeps a configuration sound. -/
theorem step_sound (limit : Nat) (h : B.Sound c) : B.Sound (step B.program limit c) := by
  obtain ⟨cs, U, R, h, hd⟩ := h
  unfold step
  unfold Doing at hd
  cases hc : c.control with
  | eval t =>
    simp only [hc] at hd
    obtain ⟨L, a, L', hf, ht, he, hw⟩ := hd
    exact eval_sound h hf ht he hw
  | value id v =>
    simp only [hc] at hd
    obtain ⟨a, L, q, hf, hv, hr, hq, hw⟩ := hd
    cases hks : c.activation.konts with
    | nil =>
      rw [hks] at hw
      exact leave_sound h (hv.inside hw)
    | cons k ks =>
      rw [hks] at hw
      exact resume_sound (c := c.pop ks) ⟨h.objects, h.heap, h.runs, h.callers⟩ hf hv hq hw
  | call site receiver k args =>
    simp only [hc] at hd
    obtain ⟨r, as, a, L, hf, hcall, hargs, hcalls, hr, hw⟩ := hd
    exact call_sound h hf hcall hargs hcalls hr hw
  | apply site op operands =>
    simp only [hc] at hd
    obtain ⟨as, a, L, hf, hvs, ha, hop, hr, hw⟩ := hd
    dsimp only
    split
    · rename_i v hv
      exact value_sound h hf (Primitive.apply_of B.ok.types ha (B.arity op as hop) hvs hv) hr hw
    · rename_i cause hv
      exact fail_sound h (.inr (.inl ⟨op, as, cs, operands, hop, hvs, hv⟩))
  | bind params args code =>
    simp only [hc] at hd
    obtain ⟨hks, S, hf, hb⟩ := hd
    exact bind_sound h hks hf hb
  | unwind v =>
    simp only [hc] at hd
    obtain ⟨hv, hdef⟩ := hd
    cases hks : c.activation.konts with
    | nil => exact leave_sound h (hv.inside h.runs.returns)
    | cons k ks =>
      rw [hks, inDefault_cons, not_or] at hdef
      cases k
      case default => exact absurd rfl hdef.1
      all_goals exact ⟨cs, U, R, ⟨h.objects, h.heap, h.runs, h.callers⟩, hv, hdef.2⟩
  | raise e =>
    simp only [hc] at hd
    dsimp only
    split
    · exact abandon_sound h hd
    · exact ⟨cs, U, R, ⟨h.objects, h.heap, h.runs, h.callers⟩, hd⟩
  | top last todo =>
    simp only [hc] at hd
    obtain ⟨hks, hunit, hts, b, L, a, L', hf, hv, ht, hin⟩ := hd
    cases todo with
    | nil =>
      obtain ⟨rfl, rfl⟩ := ht
      have hruns := h.runs
      rw [hunit] at hruns
      obtain ⟨-, -, rfl⟩ := hruns
      exact ⟨cs, U, _, ⟨h.objects, h.heap, h.runs, h.callers⟩, hv.inside hin⟩
    | cons t ts =>
      obtain ⟨b, L₁, htt, hrest⟩ := ht
      refine push_sound h hf htt rfl ?_ (.inr ⟨hks, hunit, fun u hu => hts u (.tail _ hu), a, L',
        hrest, hin⟩)
      exact (hts t (.head _)).imp fun u hu => ⟨hu, by simp [hks]⟩
  | done result => exact ⟨cs, U, R, h, by unfold Doing; simpa only [hc] using hd⟩

/-- A run starts in a sound configuration. -/
theorem start_sound (B : Basis) : B.Sound (start B.program) := by
  obtain ⟨a, L', ht, hin⟩ := B.topTyped
  have hempty : ({} : Heap).Holds B.τ.types B.Occurs B.τ.hierarchy.ivarType [] :=
    ⟨rfl, fun o c n v hc => by simp at hc⟩
  refine ⟨[.object], B.top, B.type, ⟨List.prefix_refl _, hempty.allocate .object,
    ⟨rfl, rfl, rfl⟩, rfl⟩, rfl, rfl, ?_, .nil, ∅, a, L', .empty B.ok.types, .nil B.ok.types, ?_, hin⟩
  · rw [B.main_eq]
    exact B.mainAllowed
  · rw [B.main_eq]
    exact ht

/-- Whatever a run reaches is sound. -/
theorem run_sound (B : Basis) (limit n : Nat) :
    B.Sound ((step B.program limit)^[n] (start B.program)) := by
  induction n with
  | zero => exact B.start_sound
  | succ n ih =>
    rw [Function.iterate_succ_apply']
    exact step_sound limit ih

/-- In a sound configuration, the value of an expression is of the type that the program has recorded
for it, if the program has what the pass found. -/
theorem Sound.value (h : B.Sound c) (hs : B.Strict) {id : ExprId} (hc : c.control = .value id v) :
    ∃ a, (bodyOf B.program c.activation.unit).exprTypes[id]? = some a ∧
      ∃ m ∈ B.program.types.members a, v.type? B.program.types = some m := by
  obtain ⟨cs, U, R, h, hd⟩ := h
  simp only [Doing, hc] at hd
  obtain ⟨a, L, q, -, hv, ⟨b, hb, hin⟩, -⟩ := hd
  obtain ⟨-, m, hm, hvm⟩ := hv.inside hin
  have hle : B.τ.types ≤ B.program.types := B.types_eq ▸ B.grows.types
  refine ⟨b, by rw [h.runs.program.2 hs, hb], m, ?_, Value.type?_mono hvm hle⟩
  rwa [(has_of_mem hm).members_eq hle]

/-- In a sound configuration, the result is of the type of the top level. -/
theorem Sound.result (h : B.Sound c) (hc : c.control = .done (.ok v)) :
    ∃ m ∈ B.program.types.members B.type, v.type? B.program.types = some m := by
  obtain ⟨cs, U, R, h, hd⟩ := h
  simp only [Doing, hc] at hd
  obtain ⟨-, m, hm, hvm⟩ := hd
  have hle : B.τ.types ≤ B.program.types := B.types_eq ▸ B.grows.types
  refine ⟨m, ?_, Value.type?_mono hvm hle⟩
  rwa [(has_of_mem hm).members_eq hle]

theorem Sound.failure (h : B.Sound c) {e : RunError} (hc : c.control = .done (.error e)) :
    B.Fails e.cause := by
  obtain ⟨cs, U, R, h, hd⟩ := h
  simpa only [Doing, hc] using hd

end Basis

/-- A run that ends takes some number of steps. -/
theorem runFrom_done {p : Program} {limit steps : Nat} {c : Config} {o : Outcome}
    (h : runFrom p limit steps c = some o) :
    ∃ n, ((step p limit)^[n] c).control = .done o.result := by
  induction steps generalizing c with
  | zero =>
    refine ⟨0, ?_⟩
    simp only [runFrom, Config.outcome?] at h
    split at h
    · cases h
      assumption
    · cases h
  | succ steps ih =>
    simp only [runFrom] at h
    split at h
    · cases h
      exact ⟨0, by assumption⟩
    · obtain ⟨n, hn⟩ := ih h
      exact ⟨n + 1, hn⟩

end Multimethod.Machine
