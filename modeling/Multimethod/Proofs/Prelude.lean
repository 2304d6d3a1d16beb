import Multimethod.Prelude
import Multimethod.Proofs.Builder

/-!
# What the predefined methods are

The bodies of the predefined methods are `self`, a truth value, or one primitive operation; but for
identity, its operands are numbers: `self` in a method of a number class, or a parameter that is
restricted to one (`Prelude.builder_predefined`).
-/

namespace Multimethod

namespace Prelude

open Builder

variable {b b' b'' : Builder} {d : Definition} {e : ExprId}

/-- The operand `e` in the body of `d` is a number: `self` in a method of a number class, or the
parameter, which is restricted to a number class. -/
def Numeric (b : Builder) (d : Definition) (e : ExprId) : Prop :=
  (b.Stores e .self ∧ ∃ c ∈ numeric, ∃ n, b.names.find? c = some n ∧
    d.owner = some (.instances n)) ∨
  ∃ p, b.Stores e (.var p.name) ∧ d.params = [p] ∧ ∃ c ∈ numeric, ∃ n,
    b.names.find? c = some n ∧ p.restriction = some (.named n)

/-- A definition like the predefined ones. -/
structure Predefined (b : Builder) (d : Definition) : Prop where
  defaults : ∀ p ∈ d.params, p.default = none
  body : b.Stores d.body .self ∨ (∃ v, b.Stores d.body (.bool v)) ∨
    ∃ op es, b.Applies d.body op es ∧ es.length = op.arity ∧
      (∀ e ∈ es, b.Stores e .self ∨ ∃ n, b.Stores e (.var n)) ∧
      (op = .identical ∨ ∀ e ∈ es, Numeric b d e)

theorem Numeric.extend (h : Numeric b d e) (hb : b.Extends b') : Numeric b' d e := by
  rcases h with ⟨hs, c, hc, n, hn, ho⟩ | ⟨p, hs, hp, c, hc, n, hn, hr⟩
  · exact .inl ⟨hb.stores hs, c, hc, n, NameTable.find?_mono hn hb.names, ho⟩
  · exact .inr ⟨p, hb.stores hs, hp, c, hc, n, NameTable.find?_mono hn hb.names, hr⟩

theorem Predefined.extend (h : Predefined b d) (hb : b.Extends b') : Predefined b' d := by
  refine ⟨h.defaults, ?_⟩
  rcases h.body with hs | ⟨v, hs⟩ | ⟨op, es, ha, hl, hes, hop⟩
  · exact .inl (hb.stores hs)
  · exact .inr (.inl ⟨v, hb.stores hs⟩)
  · exact .inr (.inr ⟨op, es, hb.applies ha, hl,
      fun e he => (hes e he).imp hb.stores fun ⟨n, hn⟩ => ⟨n, hb.stores hn⟩,
      hop.imp_right fun h e he => (h e he).extend hb⟩)

/-- A construction that adds definitions like the predefined ones. -/
def Adds (x : Build Unit) : Prop :=
  ∀ b, ∃ b' ds, x b = ((), b') ∧ b.Steps b' ds ∧ ∀ d ∈ ds, Predefined b' d

theorem Adds.bind {x y : Build Unit} (hx : Adds x) (hy : Adds y) : Adds (x >>= fun _ => y) := by
  intro b
  obtain ⟨b₁, ds, hb₁, h₁, hds⟩ := hx b
  obtain ⟨b₂, ds', hb₂, h₂, hds'⟩ := hy b₁
  refine ⟨b₂, ds ++ ds', ?_, h₁.trans h₂, fun d hd => ?_⟩
  · rw [← hb₂]
    simp only [Bind.bind, StateT.bind, hb₁]
  · exact (List.mem_append.1 hd).elim (fun hd => (hds d hd).extend h₂.1) (hds' d)

theorem Adds.forIn {α : Type} {f : α → Build Unit} {xs : List α} (h : ∀ x ∈ xs, Adds (f x)) :
    Adds (forIn xs PUnit.unit fun x _ => do f x; pure (.yield PUnit.unit)) := by
  induction xs with
  | nil => exact fun b => ⟨b, [], rfl, ⟨.refl b, (List.append_nil _).symm⟩, by simp⟩
  | cons x xs ih =>
    simp only [List.forIn_cons, bind_assoc, pure_bind]
    exact (h x (.head _)).bind (ih fun y hy => h y (.tail _ hy))

theorem operator_adds {receiver operand : String} {op : Primitive} (hr : receiver ∈ numeric)
    (ho : operand ∈ numeric) (hop : op ∈ operators) : Adds (operator receiver operand op) := by
  intro b
  obtain ⟨this, b₁, hb₁, h₁, hthis, -⟩ := expr_spec .self b
  obtain ⟨x, other, b₂, hb₂, h₂, hx, hother, -⟩ := var_spec "other" b₁
  have hthis₂ := h₂.1.stores hthis
  obtain ⟨body, b₃, hb₃, h₃, ha⟩ := primitive_spec (b := b₂) op [this, other]
    (by simpa using ⟨hthis₂.lt_size, hother.lt_size⟩)
  obtain ⟨n, b₄, hb₄, h₄, -, hn⟩ := name_spec operand b₃
  obtain ⟨y, span, b₅, hb₅, h₅, hy⟩ := param_spec "other" (some (.named n)) none b₄
  obtain ⟨c, d, b₆, hb₆, h₆, hc, howner, hparams, hbody⟩ :=
    method_spec receiver op.methodName [⟨y, some (.named n), none, span⟩] body b₅
  have h₄₆ := h₅.nil_trans h₆
  have h₃₆ := h₄.nil_trans h₄₆
  have h₂₆ := h₃.nil_trans h₃₆
  -- Both times the name of the parameter is the first one of its text.
  have hxy : x = y := Option.some.inj ((NameTable.find?_mono hx h₂₆.1.names).symm.trans
    (NameTable.find?_mono hy h₆.1.names))
  subst hxy
  refine ⟨b₆, [d], ?_, h₁.nil_trans (h₂.nil_trans h₂₆), ?_⟩
  · rw [← hb₆]
    simp only [operator, Build.self, Bind.bind, StateT.bind, hb₁, hb₂, hb₃, hb₄, hb₅]
  · intro d' hd'
    cases List.mem_singleton.1 hd'
    refine ⟨by simp [hparams], .inr (.inr ⟨op, [this, other], hbody ▸ h₃₆.1.applies ha, ?_, ?_, ?_⟩)⟩
    · simp only [operators, List.mem_cons, List.not_mem_nil, or_false] at hop
      rcases hop with rfl | rfl | rfl | rfl | rfl | rfl | rfl | rfl <;> rfl
    · simpa using ⟨.inl (h₂₆.1.stores hthis₂), .inr ⟨x, h₂₆.1.stores hother⟩⟩
    · refine .inr fun e he => ?_
      rcases List.mem_cons.1 he with rfl | he
      · exact .inl ⟨h₂₆.1.stores hthis₂, receiver, hr, c, hc, howner⟩
      · cases List.mem_singleton.1 he
        exact .inr ⟨_, h₂₆.1.stores hother, hparams, operand, ho, n,
          NameTable.find?_mono hn h₄₆.1.names, rfl⟩

theorem conversion_adds {receiver : String} (hr : receiver ∈ numeric) (name : String)
    {op : Option Primitive} (hop : ∀ o ∈ op, o.arity = 1) : Adds (conversion receiver name op) := by
  intro b
  obtain ⟨this, b₁, hb₁, h₁, hthis, -⟩ := expr_spec .self b
  cases op with
  | none =>
    obtain ⟨c, d, b₂, hb₂, h₂, -, -, hparams, hbody⟩ := method_spec receiver name [] this b₁
    refine ⟨b₂, [d], ?_, h₁.nil_trans h₂, ?_⟩
    · rw [← hb₂]
      simp only [conversion, Build.self, Bind.bind, StateT.bind, hb₁]
      rfl
    · intro d' hd'
      cases List.mem_singleton.1 hd'
      exact ⟨by simp [hparams], .inl (hbody ▸ h₂.1.stores hthis)⟩
  | some o =>
    obtain ⟨body, b₂, hb₂, h₂, ha⟩ := primitive_spec (b := b₁) o [this]
      (by simpa using hthis.lt_size)
    obtain ⟨c, d, b₃, hb₃, h₃, hc, howner, hparams, hbody⟩ := method_spec receiver name [] body b₂
    have hthis₃ := (h₂.nil_trans h₃).1.stores hthis
    refine ⟨b₃, [d], ?_, h₁.nil_trans (h₂.nil_trans h₃), ?_⟩
    · rw [← hb₃]
      simp only [conversion, Build.self, Bind.bind, StateT.bind, hb₁, hb₂]
    · intro d' hd'
      cases List.mem_singleton.1 hd'
      refine ⟨by simp [hparams], .inr (.inr ⟨o, [this], hbody ▸ h₃.1.applies ha,
        (hop o rfl).symm, by simpa using .inl hthis₃, .inr ?_⟩)⟩
      intro e he
      cases List.mem_singleton.1 he
      exact .inl ⟨hthis₃, receiver, hr, c, hc, howner⟩

theorem isNil_adds (receiver : String) (v : Bool) :
    Adds (do Build.method receiver "nil?" [] (← Build.bool v)) := by
  intro b
  obtain ⟨e, b₁, hb₁, h₁, he, -⟩ := expr_spec (.bool v) b
  obtain ⟨c, d, b₂, hb₂, h₂, -, -, hparams, hbody⟩ := method_spec receiver "nil?" [] e b₁
  refine ⟨b₂, [d], ?_, h₁.nil_trans h₂, ?_⟩
  · rw [← hb₂]
    simp only [Build.bool, Bind.bind, StateT.bind, hb₁]
  · intro d' hd'
    cases List.mem_singleton.1 hd'
    exact ⟨by simp [hparams], .inr (.inl ⟨v, hbody ▸ h₂.1.stores he⟩)⟩

theorem identical_adds : Adds (do
    let this ← Build.self
    let other ← Build.var "other"
    let body ← Build.primitive .identical [this, other]
    let param ← Build.param "other" none none
    Build.method "Object" "==" [param] body) := by
  intro b
  obtain ⟨this, b₁, hb₁, h₁, hthis, -⟩ := expr_spec .self b
  obtain ⟨x, other, b₂, hb₂, h₂, -, hother, -⟩ := var_spec "other" b₁
  have hthis₂ := h₂.1.stores hthis
  obtain ⟨body, b₃, hb₃, h₃, ha⟩ := primitive_spec (b := b₂) .identical [this, other]
    (by simpa using ⟨hthis₂.lt_size, hother.lt_size⟩)
  obtain ⟨y, span, b₄, hb₄, h₄, -⟩ := param_spec "other" none none b₃
  obtain ⟨c, d, b₅, hb₅, h₅, -, -, hparams, hbody⟩ :=
    method_spec "Object" "==" [⟨y, none, none, span⟩] body b₄
  have h₃₅ := h₄.nil_trans h₅
  have h₂₅ := h₃.nil_trans h₃₅
  refine ⟨b₅, [d], ?_, h₁.nil_trans (h₂.nil_trans h₂₅), ?_⟩
  · rw [← hb₅]
    simp only [Build.self, Bind.bind, StateT.bind, hb₁, hb₂, hb₃, hb₄]
  · intro d' hd'
    cases List.mem_singleton.1 hd'
    exact ⟨by simp [hparams], .inr (.inr ⟨.identical, [this, other], hbody ▸ h₃₅.1.applies ha, rfl,
      by simpa using ⟨.inl (h₂₅.1.stores hthis₂), .inr ⟨x, h₂₅.1.stores hother⟩⟩, .inl rfl⟩)⟩

theorem install_adds : Adds install := by
  rw [install]
  refine Adds.bind (.forIn fun _ hr => .forIn fun _ ho => .forIn fun _ hop =>
    operator_adds hr ho hop) ?_
  refine (conversion_adds (by decide) _ (by simp)).bind ?_
  refine (conversion_adds (by decide) _ (by simp [Primitive.arity])).bind ?_
  refine (conversion_adds (by decide) _ (by simp [Primitive.arity])).bind ?_
  refine (conversion_adds (by decide) _ (by simp)).bind ?_
  rw [← bind_assoc (Build.bool false)]
  refine (isNil_adds "Object" false).bind ?_
  rw [← bind_assoc (Build.bool true)]
  exact (isNil_adds "Nil" true).bind identical_adds

/-- What is built on the predefined methods still has them as they are. -/
theorem builder_predefined {names : NameTable} (h : (builder names).Extends b) :
    ∀ d ∈ (builder names).source.definitions, Predefined b d := by
  obtain ⟨b', ds, hb, hs, hds⟩ := install_adds { names }
  have hb' : builder names = b' := by rw [builder, hb]
  rw [hb'] at h ⊢
  rw [hs.2]
  exact fun d hd => (hds d hd).extend h

end Prelude

end Multimethod
