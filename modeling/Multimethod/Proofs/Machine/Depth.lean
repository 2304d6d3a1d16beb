import Mathlib.Logic.Function.Iterate
import Multimethod.Machine.Step

/-!
# The depth of nested calls

The depth that a configuration counts is the number of callers that wait, and never exceeds the limit
(`Counted`). Until the evaluation of an expression has ended, in a value, by returning early or by an
error, everything that waited for it keeps waiting (`During`), so it ends at the depth where it began.
The limit is read only where a call too many is refused, and then the run ends because of that
(`runFrom_mono`). So a limit only cuts runs short (`run_depth`).
-/

namespace Multimethod.Machine

variable (p : Program) (limit : Nat) {limit' : Nat} {c c' c₁ : Config} {d : Nat} {v : Value}

/-! ## Work within one body -/

/-- What some work belongs to: an expression (0), the body of a method with its parameters (1) or the
top level (2). -/
def Kont.level : Kont → Nat
  | .top _ => 2
  | .default _ _ _ => 1
  | _ => 0

/-- What the next thing to be done belongs to. -/
def Control.level : Control → Nat
  | .top _ _ | .done _ => 2
  | .bind _ _ _ => 1
  | _ => 0

theorem Kont.level_le (k : Kont) : k.level ≤ 2 := by cases k <;> simp [level]

theorem Control.level_le (k : Control) : k.level ≤ 2 := by cases k <;> simp [level]

/-- An expression has been evaluated: it has a value, returns early or fails. -/
def Control.IsResult : Control → Prop
  | .value _ _ | .unwind _ | .raise _ => True
  | _ => False

/-- The same body goes on, perhaps with more work to do, which is of level `d` at most. -/
structure Works (d : Nat) (c c' : Config) : Prop where
  callers : c'.callers = c.callers
  depth : c'.depth = c.depth
  unit : c'.activation.unit = c.activation.unit
  receiver : c'.activation.receiver = c.activation.receiver
  konts : ∃ ks, c'.activation.konts = ks ++ c.activation.konts ∧ ∀ k ∈ ks, k.level ≤ d
  control : c'.control.level ≤ d

namespace Works

theorem refl (hc : c.control.level ≤ d) : Works d c c :=
  ⟨rfl, rfl, rfl, rfl, ⟨[], rfl, nofun⟩, hc⟩

theorem run {k : Control} (hk : k.level ≤ d) : Works d c (c.run k) :=
  ⟨rfl, rfl, rfl, rfl, ⟨[], rfl, nofun⟩, hk⟩

theorem push (k : Kont) (hk : k.level ≤ d) {ctl : Control} (hc : ctl.level ≤ d) :
    Works d c (c.push k ctl) :=
  ⟨rfl, rfl, rfl, rfl, ⟨[k], rfl, by simpa using hk⟩, hc⟩

theorem fail (cause : RunError.Cause) (span : Span) : Works d c (c.fail cause span) :=
  .run (Nat.zero_le _)

/-- Locals and objects do not matter. -/
theorem congr (h : Works d c₁ c') (hk : c₁.activation.konts = c.activation.konts)
    (hu : c₁.activation.unit = c.activation.unit)
    (hr : c₁.activation.receiver = c.activation.receiver) (hc : c₁.callers = c.callers)
    (hd : c₁.depth = c.depth) : Works d c c' :=
  ⟨h.callers.trans hc, h.depth.trans hd, h.unit.trans hu, h.receiver.trans hr, hk ▸ h.konts,
    h.control⟩

theorem setLocal (n : Name) (h : Works d (c.setLocal n v) c') : Works d c c' :=
  h.congr rfl rfl rfl rfl rfl

theorem setIvar (n : Name) (h : Works d (c.setIvar n v) c') : Works d c c' := by
  unfold Config.setIvar at h
  split at h
  · exact h.congr rfl rfl rfl rfl rfl
  · exact h

theorem nextArgument (site : Site) (receiver : Option Value) (k : Name) (done : List Value)
    (todo : List Term) : Works d c (nextArgument c site receiver k done todo) := by
  cases todo with
  | nil => exact .run (Nat.zero_le _)
  | cons t ts => exact .push _ (Nat.zero_le _) (Nat.zero_le _)

theorem nextOperand (site : Site) (op : Primitive) (done : List Value) (todo : List Term) :
    Works d c (nextOperand c site op done todo) := by
  cases todo with
  | nil => exact .run (Nat.zero_le _)
  | cons t ts => exact .push _ (Nat.zero_le _) (Nat.zero_le _)

theorem nextStmt (id : ExprId) (last : Value) (todo : List Term) :
    Works d c (nextStmt c id last todo) := by
  cases todo with
  | nil => exact .run (Nat.zero_le _)
  | cons t ts => exact .push _ (Nat.zero_le _) (Nat.zero_le _)

theorem eval (t : Term) : Works d c (eval p c t) := by
  cases t with
  | const site n =>
    simp only [Machine.eval]
    split
    · exact .run (Nat.zero_le _)
    · exact .fail _ _
  | send => exact nextArgument _ _ _ _ _
  | block => exact nextStmt _ _ _
  | primitive => exact nextOperand _ _ _ _
  | nil | bool | int | float | self | var | ivar | ret => exact .run (Nat.zero_le _)
  | assign | setIvar | call | ifThen | ifElse | loop | andAlso | orElse | retValue =>
    exact .push _ (Nat.zero_le _) (Nat.zero_le _)

theorem resume {k : Kont} (hk : k.level ≤ d) : Works d c (resume c v k) := by
  cases k with
  | assign id n => exact setLocal n (.run (Nat.zero_le _))
  | setIvar id n => exact setIvar n (.run (Nat.zero_le _))
  | receiver | argument => exact nextArgument _ _ _ _ _
  | choose =>
    simp only [Machine.resume]
    split
    · exact .push _ (Nat.zero_le _) (Nat.zero_le _)
    · exact .push _ (Nat.zero_le _) (Nat.zero_le _)
    · exact .run (Nat.zero_le _)
  | loopTest | andAlso =>
    simp only [Machine.resume]
    split
    · exact .push _ (Nat.zero_le _) (Nat.zero_le _)
    · exact .run (Nat.zero_le _)
  | orElse =>
    simp only [Machine.resume]
    split
    · exact .run (Nat.zero_le _)
    · exact .push _ (Nat.zero_le _) (Nat.zero_le _)
  | loopBody => exact .push _ (Nat.zero_le _) (Nat.zero_le _)
  | stmt => exact nextStmt _ _ _
  | operand => exact nextOperand _ _ _ _
  | ret | same => exact .run (Nat.zero_le _)
  | default q rest code => exact setLocal q.name (.run hk)
  | top => exact .run hk

theorem bind (hd : 1 ≤ d) (code : Term) (qs : List Param) (vs : List Value) :
    Works d c (bind p c code qs vs) := by
  cases qs with
  | nil => exact .run (Nat.zero_le _)
  | cons q qs =>
    cases vs with
    | cons v vs => exact setLocal q.name (.run hd)
    | nil =>
      simp only [Machine.bind]
      split
      · exact .push _ hd (Nat.zero_le _)
      · exact setLocal q.name (.run hd)

end Works

/-! ## Entering and leaving bodies -/

/-- A call has been entered. -/
structure Deepens (limit : Nat) (c c' : Config) : Prop where
  callers : ∃ x, c'.callers = x :: c.callers ∧ x.activation = c.activation
  depth : c'.depth = c.depth + 1
  below : c.depth < limit
  konts : c'.activation.konts = []
  control : c'.control.level = 1

/-- The running body has been left, for the caller `x`. -/
structure Leaves (x : Caller) (xs : List Caller) (c c' : Config) : Prop where
  callers : c'.callers = xs
  depth : c'.depth = c.depth - 1
  activation : c'.activation = x.activation
  control : c'.control.level = 0

theorem invoke_cases (site : Site) (s : SpecId) (receiver : Option Value) (args : List Value)
    (object : Option Value) : Works d c (invoke p limit c site s receiver args object) ∨
      Deepens limit c (invoke p limit c site s receiver args object) := by
  unfold invoke
  split
  · exact .inl (.fail _ _)
  · split
    · exact .inl (.run (Nat.zero_le _))
    · exact .inr ⟨⟨_, rfl, rfl⟩, rfl, by omega, rfl, rfl⟩

theorem call_cases (site : Site) (receiver : Option Value) (k : Name) (args : List Value) :
    Works d c (call p limit c site receiver k args) ∨
      Deepens limit c (call p limit c site receiver k args) := by
  unfold call
  split
  · exact .inl (.fail _ _)
  · exact invoke_cases _ _ _ _ _ _ _
  · exact .inl (.congr (.run (Nat.zero_le _)) rfl rfl rfl rfl rfl)
  · exact .inl (.congr (.run (Nat.zero_le _)) rfl rfl rfl rfl rfl)
  · rename_i cls s _ _
    have hc := @invoke_cases p limit { c with heap := (c.heap.allocate cls).2 } d site s
      (some (c.heap.allocate cls).1) args (some (c.heap.allocate cls).1)
    exact hc.imp (fun h => h.congr rfl rfl rfl rfl rfl) fun h =>
      ⟨h.callers, h.depth, h.below, h.konts, h.control⟩

/-- A step where nothing has been evaluated yet. -/
theorem step_of_not_result (hc : c.control.level ≤ d) (hr : ¬ c.control.IsResult) :
    Works d c (step p limit c) ∨ Deepens limit c (step p limit c) := by
  unfold step
  cases hctl : c.control with
  | eval t => exact .inl (.eval p t)
  | call site receiver k args => exact call_cases p limit site receiver k args
  | apply site op vs =>
    dsimp only
    split
    · exact .inl (.run (Nat.zero_le _))
    · exact .inl (.fail _ _)
  | bind qs vs code =>
    rw [hctl] at hc
    exact .inl (.bind p hc code qs vs)
  | top last todo =>
    rw [hctl] at hc
    cases todo with
    | nil => exact .inl (.run hc)
    | cons t ts => exact .inl (.push _ hc (Nat.zero_le _))
  | done => exact .inl (.refl hc)
  | value | unwind | raise =>
    rw [hctl] at hr
    exact absurd trivial hr

/-- A step that hands what has been evaluated to the work that waits for it. -/
theorem step_of_result (hr : c.control.IsResult) {k : Kont} {ks : List Kont}
    (hks : c.activation.konts = k :: ks) (hk : k.level ≤ d) :
    Works d (c.pop ks) (step p limit c) := by
  unfold step
  cases hctl : c.control with
  | value id v =>
    simp only [hks]
    exact .resume hk
  | unwind v =>
    simp only [hks]
    split
    · contradiction
    · rename_i h
      cases h
      exact .resume hk
    · rename_i h
      cases h
      exact .run (Nat.zero_le _)
  | raise e =>
    simp only [hks]
    exact .run (Nat.zero_le _)
  | eval | call | apply | bind | top | done =>
    rw [hctl] at hr
    exact hr.elim

/-- A step out of a body that was called. -/
theorem step_leaves (hr : c.control.IsResult) (hks : c.activation.konts = []) {x : Caller}
    {xs : List Caller} (hx : c.callers = x :: xs) : Leaves x xs c (step p limit c) := by
  unfold step
  cases hctl : c.control with
  | value id v | unwind v =>
    simp only [hks, leave, hx]
    exact ⟨rfl, rfl, rfl, rfl⟩
  | raise e =>
    simp only [hks, abandon, hx]
    exact ⟨rfl, rfl, rfl, rfl⟩
  | eval | call | apply | bind | top | done =>
    rw [hctl] at hr
    exact hr.elim

/-- A step out of the top level ends the run. -/
theorem step_ends (hr : c.control.IsResult) (hks : c.activation.konts = [])
    (hx : c.callers = []) : ∃ r, step p limit c = c.run (.done r) := by
  unfold step
  cases hctl : c.control with
  | value id v | unwind v =>
    simp only [hks, leave, hx]
    exact ⟨_, rfl⟩
  | raise e =>
    simp only [hks, abandon, hx]
    exact ⟨_, rfl⟩
  | eval | call | apply | bind | top | done =>
    rw [hctl] at hr
    exact hr.elim

/-! ## Depth counts callers -/

variable {limit}

/-- The depth is the number of callers, and within the limit. -/
structure Counted (limit : Nat) (c : Config) : Prop where
  depth : c.depth = c.callers.length
  le : c.depth ≤ limit

namespace Counted

theorem congr (h : Counted limit c) (hc : c'.callers = c.callers) (hd : c'.depth = c.depth) :
    Counted limit c' := ⟨by rw [hc, hd, h.depth], hd ▸ h.le⟩

theorem enter (h : Counted limit c) (he : Deepens limit c c') : Counted limit c' := by
  obtain ⟨x, hx, -⟩ := he.callers
  refine ⟨by rw [hx, he.depth, h.depth, List.length_cons], ?_⟩
  rw [he.depth]
  exact he.below

theorem leave {x : Caller} {xs : List Caller} (h : Counted limit c) (hx : c.callers = x :: xs)
    (hl : Leaves x xs c c') : Counted limit c' := by
  have hd := h.depth
  rw [hx, List.length_cons] at hd
  refine ⟨by rw [hl.callers, hl.depth, hd, Nat.add_sub_cancel], ?_⟩
  rw [hl.depth]
  exact Nat.le_trans (Nat.sub_le _ _) h.le

theorem step (h : Counted limit c) : Counted limit (step p limit c) := by
  by_cases hr : c.control.IsResult
  · cases hks : c.activation.konts with
    | nil =>
      cases hx : c.callers with
      | nil =>
        obtain ⟨r, hs⟩ := step_ends p limit hr hks hx
        rw [hs]
        exact h.congr rfl rfl
      | cons x xs => exact h.leave hx (step_leaves p limit hr hks hx)
    | cons k ks =>
      have hw := step_of_result p limit hr hks k.level_le
      exact h.congr hw.callers hw.depth
  · rcases step_of_not_result p limit c.control.level_le hr with hw | he
    · exact h.congr hw.callers hw.depth
    · exact h.enter he

theorem iterate (h : Counted limit c) (n : Nat) :
    Counted limit ((Machine.step p limit)^[n] c) := by
  induction n with
  | zero => exact h
  | succ n ih =>
    rw [Function.iterate_succ_apply']
    exact ih.step p

theorem start : Counted limit (start p) := ⟨rfl, Nat.zero_le limit⟩

end Counted

/-! ## While an expression is evaluated -/

section
variable (limit) {a : Activation} {xs : List Caller}

/-- In the body of the activation `a`, the work of `a` still remains to be done, besides some of level
`d` at most; `xs` wait for the body. -/
structure Above (d : Nat) (a : Activation) (xs : List Caller) (c : Config) : Prop where
  callers : c.callers = xs
  unit : c.activation.unit = a.unit
  receiver : c.activation.receiver = a.receiver
  konts : ∃ ks, c.activation.konts = ks ++ a.konts ∧ ∀ k ∈ ks, k.level ≤ d
  control : c.control.level ≤ d

/-- What was begun in the activation `a` has been evaluated. -/
structure Evaluated (a : Activation) (xs : List Caller) (c : Config) : Prop where
  result : c.control.IsResult
  callers : c.callers = xs
  unit : c.activation.unit = a.unit
  receiver : c.activation.receiver = a.receiver
  konts : c.activation.konts = a.konts

theorem Above.works (h : Above d a xs c) (hw : Works d c c') : Above d a xs c' where
  callers := hw.callers.trans h.callers
  unit := hw.unit.trans h.unit
  receiver := hw.receiver.trans h.receiver
  konts := by
    obtain ⟨ks, hks, hk⟩ := hw.konts
    obtain ⟨ks', hks', hk'⟩ := h.konts
    refine ⟨ks ++ ks', by rw [hks, hks', List.append_assoc], fun k hmem => ?_⟩
    exact (List.mem_append.1 hmem).elim (hk k) (hk' k)
  control := hw.control

/-- One step further. -/
theorem Above.step (h : Above d a xs c) : Evaluated a xs c ∨ Above d a xs (step p limit c) ∨
    Deepens limit c (Machine.step p limit c) := by
  by_cases hr : c.control.IsResult
  · obtain ⟨ks, hks, hlevel⟩ := h.konts
    cases ks with
    | nil => exact .inl ⟨hr, h.callers, h.unit, h.receiver, hks⟩
    | cons k ks =>
      obtain ⟨hk, hlevel⟩ := List.forall_mem_cons.1 hlevel
      have hpop : Above d a xs (c.pop (ks ++ a.konts)) :=
        ⟨h.callers, h.unit, h.receiver, ⟨ks, rfl, hlevel⟩, h.control⟩
      exact .inr (.inl (hpop.works (step_of_result p limit hr hks hk)))
  · exact .inr ((step_of_not_result p limit h.control hr).imp_left h.works)

/-- An expression is being evaluated that was begun in the activation `a`, with `xs` waiting: in its
own body, or in one that has been called and will return to it. -/
inductive During (a : Activation) (xs : List Caller) : Config → Prop
  | here {c : Config} (h : Above 0 a xs c) : During a xs c
  | called {c : Config} {b : Activation} {x : Caller} {ys : List Caller} (hb : b.konts = [])
      (h : Above 1 b (x :: ys) c)
      (back : ∀ c', c'.callers = ys → c'.activation = x.activation → c'.control.level = 0 →
        During a xs c') : During a xs c

namespace During

/-- Whatever is called will return. -/
theorem enter (hc : ∀ c', c'.callers = c.callers → c'.activation = c.activation →
      c'.control.level = 0 → During a xs c')
    (he : Deepens limit c c') : During a xs c' := by
  obtain ⟨x, hx, hact⟩ := he.callers
  refine .called (b := { c'.activation with konts := [] }) rfl
    ⟨hx, rfl, rfl, ⟨[], he.konts, nofun⟩, Nat.le_of_eq he.control⟩ fun c₁ h₁ h₂ h₃ => ?_
  exact hc c₁ h₁ (h₂.trans hact) h₃

theorem step (h : During a xs c) : Evaluated a xs c ∨ During a xs (step p limit c) := by
  cases h with
  | here h =>
    rcases h.step p limit with he | h' | he
    · exact .inl he
    · exact .inr (.here h')
    · exact .inr (enter limit (fun c' h₁ h₂ h₃ => .here ⟨h₁.trans h.callers, h₂ ▸ h.unit,
        h₂ ▸ h.receiver, h₂ ▸ h.konts, Nat.le_of_eq h₃⟩) he)
  | @called _ b x ys hb h back =>
    refine .inr ?_
    rcases h.step p limit with he | h' | he
    · have hl := step_leaves p limit he.result (he.konts.trans hb) he.callers
      exact back _ hl.callers hl.activation hl.control
    · exact .called hb h' back
    · exact enter limit (fun c' h₁ h₂ h₃ => .called hb ⟨h₁.trans h.callers, h₂ ▸ h.unit,
        h₂ ▸ h.receiver, h₂ ▸ h.konts, h₃ ▸ Nat.zero_le 1⟩ back) he

/-- What waited before still waits. -/
theorem suffix (h : During a xs c) : xs <:+ c.callers := by
  induction h with
  | here h => exact h.callers ▸ List.suffix_rfl
  | @called c b x ys hb h back ih =>
    have := ih { c with control := .unwind .nil, activation := x.activation, callers := ys } rfl rfl
      rfl
    exact h.callers ▸ this.trans (List.suffix_cons x ys)

theorem level_le (h : During a xs c) : c.control.level ≤ 1 := by
  cases h with
  | here h => exact Nat.le_trans h.control (Nat.zero_le 1)
  | called _ h _ => exact h.control

/-- Until what was begun in an activation has been evaluated, it is under way. -/
theorem iterate (h : During a xs c) (n : Nat) :
    (∃ m < n, Evaluated a xs ((Machine.step p limit)^[m] c)) ∨
      During a xs ((Machine.step p limit)^[n] c) := by
  induction n with
  | zero => exact .inr h
  | succ n ih =>
    rcases ih with ⟨m, hm, he⟩ | h
    · exact .inl ⟨m, Nat.lt_succ_of_lt hm, he⟩
    · rw [Function.iterate_succ_apply']
      rcases h.step p limit with he | h
      · exact .inl ⟨n, Nat.lt_succ_self n, he⟩
      · exact .inr h

end During

end

/-! ## Larger limits -/

/-- Steps are the same under a larger limit, unless a call was refused. -/
theorem step_eq_or_refused (hl : limit ≤ limit') (c : Config) :
    step p limit' c = step p limit c ∨
      ∃ span, (step p limit c).control = .raise ⟨.stackOverflow limit, span⟩ := by
  have invoked (c : Config) (site : Site) (s : SpecId) (self : Option Value) (args : List Value)
      (object : Option Value) :
      invoke p limit' c site s self args object = invoke p limit c site s self args object ∨
        ∃ span, (invoke p limit c site s self args object).control =
          .raise ⟨.stackOverflow limit, span⟩ := by
    by_cases h : limit ≤ c.depth
    · exact .inr ⟨site.span, by simp [invoke, h, Config.fail, Config.run]⟩
    · exact .inl (by simp [invoke, h, Nat.not_le.2 (Nat.lt_of_lt_of_le (Nat.not_le.1 h) hl)])
  unfold step
  cases c.control with
  | call site receiver k args =>
    simp only [call]
    split
    · exact .inl rfl
    · exact invoked _ _ _ _ _ _
    · exact .inl rfl
    · exact .inl rfl
    · exact invoked _ _ _ _ _ _
  | top last todo => cases todo <;> exact .inl rfl
  | _ => exact .inl rfl

/-- A run that fails ends with the error. -/
theorem runFrom_raise {e : RunError} {o : Outcome} (n : Nat) :
    ∀ {c : Config}, c.control = .raise e → runFrom p limit n c = some o → o.result = .error e := by
  induction n with
  | zero =>
    intro c hc h
    simp [runFrom, Config.outcome?, hc] at h
  | succ n ih =>
    intro c hc h
    simp only [runFrom, hc] at h
    have hr : c.control.IsResult := by rw [hc]; trivial
    cases hks : c.activation.konts with
    | cons k ks => exact ih (by simp [step, hc, hks, Config.run]) h
    | nil =>
      cases hx : c.callers with
      | cons x xs => exact ih (by simp [step, hc, hks, abandon, hx]) h
      | nil =>
        have hs : step p limit c = c.run (.done (.error e)) := by simp [step, hc, hks, abandon, hx]
        rw [hs] at h
        cases n <;> cases h <;> rfl

/-- A run that ends, and not because calls were nested too deeply, ends the same way under a larger
limit. -/
theorem runFrom_mono (hl : limit ≤ limit') {o : Outcome}
    (ho : ∀ e m, o.result = .error e → e.cause ≠ .stackOverflow m) (n : Nat) :
    ∀ {c : Config}, runFrom p limit n c = some o → runFrom p limit' n c = some o := by
  induction n with
  | zero => exact fun h => h
  | succ n ih =>
    intro c h
    simp only [runFrom] at h ⊢
    split
    · rename_i r hc
      simpa only [hc] using h
    · rename_i hne
      have h : runFrom p limit n (step p limit c) = some o := by
        split at h
        · rename_i r hc
          exact absurd hc (hne r)
        · exact h
      rcases step_eq_or_refused p hl c with hs | ⟨span, hs⟩
      · rw [hs]
        exact ih h
      · exact absurd rfl (ho _ _ (runFrom_raise p n hs h))

/-! ## Runs -/

/-- The configuration comes after one that evaluates an expression, whose evaluation has not ended:
whatever waited for it still waits, and the run has not ended either. -/
structure Config.Within (c c' : Config) : Prop where
  callers : c.callers <:+ c'.callers
  depth : c.depth ≤ c'.depth
  outcome : c'.outcome? = none

/-- An expression is evaluated at the depth where this was begun. -/
theorem evaluated_or_within (h : Counted limit c) {t : Term} (ht : c.control = .eval t) (n : Nat) :
    (∃ m < n, Evaluated c.activation c.callers ((step p limit)^[m] c) ∧
      ((step p limit)^[m] c).depth = c.depth) ∨ c.Within ((step p limit)^[n] c) := by
  have hbegun : During c.activation c.callers c :=
    .here ⟨rfl, rfl, rfl, ⟨[], rfl, nofun⟩, by rw [ht]; exact Nat.le_refl 0⟩
  rcases hbegun.iterate p limit n with ⟨m, hm, he⟩ | hd
  · exact .inl ⟨m, hm, he, by rw [(h.iterate p m).depth, h.depth, he.callers]⟩
  · refine .inr ⟨hd.suffix, ?_, ?_⟩
    · rw [(h.iterate p n).depth, h.depth]
      exact hd.suffix.length_le
    · unfold Config.outcome?
      split
      · rename_i r hr
        have hlevel := hd.level_le
        simp [hr, Control.level] at hlevel
      · rfl

/-- A run that ends, other than because calls were nested too deeply, ends with the same value or
error, and the same objects, under any larger limit. In every run no more calls are nested than the
limit allows; and until an expression has been evaluated (to a value, by an early return or by an
error), nothing that waited for it goes on and the run does not end, but then as many calls are
nested as before. -/
theorem run_depth (p : Program) (limit limit' : Nat) (hl : limit ≤ limit') :
    (∀ n o, run p limit n = some o → (∀ e m, o.result = .error e → e.cause ≠ .stackOverflow m) →
      run p limit' n = some o) ∧
    ∀ n c, c = (step p limit)^[n] (start p) → c.depth = c.callers.length ∧ c.depth ≤ limit ∧
      ∀ t, c.control = .eval t → ∀ k,
        (∃ m < k, Evaluated c.activation c.callers ((step p limit)^[m] c) ∧
          ((step p limit)^[m] c).depth = c.depth) ∨ c.Within ((step p limit)^[k] c) := by
  refine ⟨fun n o h ho => runFrom_mono p hl ho n h, fun n c hc => ?_⟩
  have h : Counted limit c := hc ▸ (Counted.start p).iterate p n
  exact ⟨h.depth, h.le, fun t ht => evaluated_or_within p h ht⟩

/-- The top level calls a function that calls another one. -/
def calls : Builder := ((do
  Build.function "one" [] (← Build.int 1)
  Build.function "two" [] (← Build.call none "one" [])
  Build.stmt (← Build.call none "two" []) : Build Unit).run {}).2

/-- Two nested calls are enough, but a single one is not. -/
theorem run_depth_calls : ∃ r o, check calls.names calls.source {} = some r ∧
    run r.program 2 100 = some o ∧ o.result.isOk = true ∧ run r.program defaultDepth 100 = some o ∧
    ((run r.program 1 100).any fun o => !o.result.isOk) = true := by
  obtain ⟨r, hr, hok, hfail⟩ : ∃ r ∈ check calls.names calls.source {},
      (run r.program 2 100).any (·.result.isOk) = true ∧
      ((run r.program 1 100).any fun o => !o.result.isOk) = true := by decide +kernel
  cases ho : run r.program 2 100 with
  | none => simp [ho] at hok
  | some o =>
    have hvalue : o.result.isOk = true := by simpa [ho] using hok
    refine ⟨r, o, hr, ho, hvalue, ?_, hfail⟩
    refine (run_depth r.program 2 defaultDepth (by decide)).1 100 o ho fun e m he => ?_
    rw [he] at hvalue
    cases hvalue

end Multimethod.Machine
