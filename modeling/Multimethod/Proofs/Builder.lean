import Multimethod.Builder
import Multimethod.Proofs.Expr.Ordered
import Multimethod.Proofs.Name

/-!
# Sources under construction

Building only adds to a source (`Builder.Extends`, `Build.Keeps`). For each way to construct
something there is a lemma that says what it adds.
-/

namespace Multimethod

namespace Builder

/-- All that is built stays where it is. -/
structure Extends (b b' : Builder) : Prop where
  names : b.names ≤ b'.names
  exprs : ∃ es, b'.source.arena.exprs = b.source.arena.exprs ++ es
  lists : ∃ es, b'.source.arena.lists = b.source.arena.lists ++ es
  definitions : ∃ ds, b'.source.definitions = b.source.definitions ++ ds

/-- The expression `e` has the node `n`. -/
def Stores (b : Builder) (e : ExprId) (n : Node) : Prop :=
  ∃ span, b.source.arena.exprs[e.index]? = some ⟨n, span⟩

/-- The list of expressions `es` stands at `r`. -/
def Lists (b : Builder) (r : Range) (es : List ExprId) : Prop :=
  r.start + r.length ≤ b.source.arena.lists.size ∧ b.source.arena.list r = es

variable {b b' b'' : Builder} {e : ExprId} {n : Node}

theorem Stores.lt_size (h : b.Stores e n) : e.index < b.source.arena.size := by
  obtain ⟨span, h⟩ := h
  exact (Array.getElem?_eq_some_iff.1 h).1

namespace Extends

theorem refl (b : Builder) : b.Extends b :=
  ⟨NameTable.le_refl _, ⟨#[], by simp⟩, ⟨#[], by simp⟩, ⟨[], by simp⟩⟩

theorem trans (h : b.Extends b') (h' : b'.Extends b'') : b.Extends b'' := by
  obtain ⟨es, he⟩ := h.exprs
  obtain ⟨es', he'⟩ := h'.exprs
  obtain ⟨ls, hl⟩ := h.lists
  obtain ⟨ls', hl'⟩ := h'.lists
  obtain ⟨ds, hd⟩ := h.definitions
  obtain ⟨ds', hd'⟩ := h'.definitions
  exact ⟨NameTable.le_trans h.names h'.names, ⟨es ++ es', by rw [he', he, Array.append_assoc]⟩,
    ⟨ls ++ ls', by rw [hl', hl, Array.append_assoc]⟩,
    ⟨ds ++ ds', by rw [hd', hd, List.append_assoc]⟩⟩

theorem stores (h : b.Extends b') (hs : b.Stores e n) : b'.Stores e n := by
  obtain ⟨es, he⟩ := h.exprs
  have hlt := hs.lt_size
  obtain ⟨span, hs⟩ := hs
  exact ⟨span, by rw [he, Array.getElem?_append_left hlt, hs]⟩

theorem lists_at (h : b.Extends b') {r : Range} {es : List ExprId} (hs : b.Lists r es) :
    b'.Lists r es := by
  obtain ⟨l, hl⟩ := h.lists
  exact ⟨hs.1.trans (by rw [hl, Array.size_append]; exact Nat.le_add_right _ _),
    (Arena.list_of_append hl hs.1).trans hs.2⟩

end Extends

/-! ## Construction steps -/

/-- A construction step that adds some definitions. -/
def Steps (b b' : Builder) (ds : List Definition) : Prop :=
  b.Extends b' ∧ b'.source.definitions = b.source.definitions ++ ds

theorem Steps.trans {ds ds' : List Definition} (h : b.Steps b' ds) (h' : b'.Steps b'' ds') :
    b.Steps b'' (ds ++ ds') :=
  ⟨h.1.trans h'.1, by rw [h'.2, h.2, List.append_assoc]⟩

theorem Steps.nil_trans {ds : List Definition} (h : b.Steps b' []) (h' : b'.Steps b'' ds) :
    b.Steps b'' ds := h.trans h'

theorem name_spec (s : String) (b : Builder) : ∃ n b', Build.name s b = (n, b') ∧ b.Steps b' [] ∧
    b'.source = b.source ∧ b'.names.find? s = some n :=
  ⟨_, _, rfl, ⟨⟨(NameTable.intern_names s b.names).1, ⟨#[], Array.append_empty.symm⟩,
    ⟨#[], Array.append_empty.symm⟩, ⟨[], (List.append_nil _).symm⟩⟩, (List.append_nil _).symm⟩, rfl,
    NameTable.find?_intern s b.names⟩

theorem expr_spec (n : Node) (b : Builder) : ∃ e b', Build.expr n b = (e, b') ∧ b.Steps b' [] ∧
    b'.Stores e n ∧ e.index = b.source.arena.size :=
  ⟨_, _, rfl, ⟨⟨NameTable.le_refl _, ⟨#[⟨n, .single b.offset⟩], rfl⟩,
    ⟨#[], Array.append_empty.symm⟩, ⟨[], (List.append_nil _).symm⟩⟩, (List.append_nil _).symm⟩,
    ⟨.single b.offset, Array.getElem?_push_size⟩, rfl⟩

theorem list_spec (es : List ExprId) (b : Builder) : ∃ r b', Build.list es b = (r, b') ∧
    b.Steps b' [] ∧ b'.source.arena.exprs = b.source.arena.exprs ∧ b'.Lists r es := by
  refine ⟨_, _, rfl, ⟨⟨NameTable.le_refl _, ⟨#[], Array.append_empty.symm⟩, ⟨es.toArray, rfl⟩,
    ⟨[], (List.append_nil _).symm⟩⟩, (List.append_nil _).symm⟩, rfl, ?_, Arena.list_at_end rfl⟩
  show b.source.arena.lists.size + es.length ≤ (b.source.arena.lists ++ es.toArray).size
  simp

/-- The value of the local named by a text. -/
theorem var_spec (s : String) (b : Builder) : ∃ n e b', Build.var s b = (e, b') ∧ b.Steps b' [] ∧
    b'.names.find? s = some n ∧ b'.Stores e (.var n) ∧ e.index = b.source.arena.size := by
  obtain ⟨n, b₁, hb₁, h₁, hs, hn⟩ := name_spec s b
  obtain ⟨e, b₂, hb₂, h₂, he, hi⟩ := expr_spec (.var n) b₁
  refine ⟨n, e, b₂, ?_, h₁.nil_trans h₂, NameTable.find?_mono hn h₂.1.names, he, hs ▸ hi⟩
  rw [← hb₂]
  show (Build.name s >>= fun n => Build.expr (.var n)) b = _
  simp only [bind, StateT.bind, hb₁]

/-- The expression `e` applies an operation to `es`, which stand before it. -/
def Applies (b : Builder) (e : ExprId) (op : Primitive) (es : List ExprId) : Prop :=
  ∃ r, b.Stores e (.primitive op r) ∧ b.Lists r es ∧ ∀ d ∈ es, d.index < e.index

theorem Extends.applies (h : b.Extends b') {op : Primitive} {es : List ExprId}
    (ha : b.Applies e op es) : b'.Applies e op es := by
  obtain ⟨r, hs, hl, hes⟩ := ha
  exact ⟨r, h.stores hs, h.lists_at hl, hes⟩

theorem primitive_spec (op : Primitive) (es : List ExprId)
    (hes : ∀ e ∈ es, e.index < b.source.arena.size) : ∃ e b', Build.primitive op es b = (e, b') ∧
    b.Steps b' [] ∧ b'.Applies e op es := by
  obtain ⟨r, b₁, hb₁, h₁, hs, hl⟩ := list_spec es b
  obtain ⟨e, b₂, hb₂, h₂, he, hi⟩ := expr_spec (.primitive op r) b₁
  refine ⟨e, b₂, ?_, h₁.nil_trans h₂, r, he, h₂.1.lists_at hl, fun d hd => ?_⟩
  · rw [← hb₂]
    show (Build.list es >>= fun r => Build.expr (.primitive op r)) b = _
    simp only [bind, StateT.bind, hb₁]
  · rw [hi, Arena.size, hs]
    exact hes d hd

theorem param_spec (s : String) (w : Option Restriction) (d : Option ExprId) (b : Builder) :
    ∃ n span b', Build.param s w d b = (⟨n, w, d, span⟩, b') ∧ b.Steps b' [] ∧
      b'.names.find? s = some n := by
  obtain ⟨n, b₁, hb₁, h₁, -, hn⟩ := name_spec s b
  refine ⟨n, .single b₁.offset, { b₁ with offset := b₁.offset + 1 }, ?_, ?_, hn⟩
  · show (Build.name s >>= fun n => Build.span >>= fun span => pure ⟨n, w, d, span⟩ : Build Param) b = _
    simp only [bind, StateT.bind, hb₁]
    rfl
  · exact ⟨⟨h₁.1.names, h₁.1.exprs, h₁.1.lists, h₁.1.definitions⟩, h₁.2⟩

/-- A method of the instances of a class. -/
theorem method_spec (cls s : String) (ps : List Param) (body : ExprId) (b : Builder) :
    ∃ c d b', Build.method cls s ps body b = ((), b') ∧ b.Steps b' [d] ∧
      b'.names.find? cls = some c ∧ d.owner = some (.instances c) ∧ d.params = ps ∧
      d.body = body := by
  obtain ⟨c, b₁, hb₁, h₁, -, hc⟩ := name_spec cls b
  obtain ⟨n, b₂, hb₂, h₂, -, hn⟩ := name_spec s b₁
  have h₁₂ := h₁.nil_trans h₂
  have hds : b₂.source.definitions = b.source.definitions := by rw [h₁₂.2, List.append_nil]
  refine ⟨c, ⟨n, some (.instances c), ps, body, .single b₂.offset⟩, { b₂ with
      source := { b₂.source with definitions := b₂.source.definitions ++
        [⟨n, some (.instances c), ps, body, .single b₂.offset⟩] }
      offset := b₂.offset + 1 }, ?_, ⟨⟨h₁₂.1.names, h₁₂.1.exprs, h₁₂.1.lists, _, by rw [hds]⟩,
    by rw [hds]⟩, NameTable.find?_mono hc h₂.1.names, rfl, rfl, rfl⟩
  show (Build.name cls >>= fun c => Build.define (some (.instances c)) s ps body) b = _
  simp only [bind, StateT.bind, hb₁, Build.define, hb₂]
  rfl

/-! ## Terms of stored expressions -/

/-- The term of an expression is the tree of its node. -/
theorem Stores.termAt (h : b.Stores e n) : ∃ ts span, Arena.termAt b.source.arena.terms e =
      n.term ⟨e, span⟩ (Arena.termAt ts) (fun r => (b.source.arena.list r).map (Arena.termAt ts)) ∧
    ∀ d : ExprId, d.index < e.index →
      Arena.termAt ts d = Arena.termAt b.source.arena.terms d := by
  obtain ⟨span, h⟩ := h
  obtain ⟨ts, ht, hts⟩ := Arena.exists_termAt h
  exact ⟨ts, span, ht, hts⟩

theorem Applies.termAt {op : Primitive} {es : List ExprId} (h : b.Applies e op es) :
    ∃ site, Arena.termAt b.source.arena.terms e =
      .primitive site op (es.map (Arena.termAt b.source.arena.terms)) := by
  obtain ⟨r, hs, hl, hes⟩ := h
  obtain ⟨ts, span, ht, hts⟩ := hs.termAt
  refine ⟨⟨e, span⟩, ht.trans ?_⟩
  rw [Node.term, hl.2, List.map_congr_left fun d hd => hts d (hes d hd)]

end Builder

/-! ## Constructions only add -/

namespace Build

open Builder

variable {α β : Type}

/-- The construction leaves all that was built before where it is. -/
def Keeps (x : Build α) : Prop := ∀ b : Builder, b.Extends (x b).2

theorem Keeps.bind {x : Build α} {f : α → Build β} (hx : Keeps x) (hf : ∀ a, Keeps (f a)) :
    Keeps (x >>= f) := fun b => (hx b).trans (hf (x b).1 (x b).2)

theorem keeps_name (s : String) : Keeps (name s) := fun b => by
  obtain ⟨_, _, h, hs, -⟩ := name_spec s b
  rw [h]
  exact hs.1

theorem keeps_expr (n : Node) : Keeps (expr n) := fun b => by
  obtain ⟨_, _, h, hs, -⟩ := expr_spec n b
  rw [h]
  exact hs.1

theorem keeps_var (s : String) : Keeps (var s) := (keeps_name s).bind fun _ => keeps_expr _

theorem keeps_call (receiver : Option ExprId) (method : String) (args : List ExprId) :
    Keeps (call receiver method args) :=
  (keeps_name method).bind fun _ => .bind (fun b => by
    obtain ⟨_, _, h, hs, -⟩ := list_spec args b
    rw [h]
    exact hs.1) fun _ => keeps_expr _

theorem keeps_param (s : String) (w : Option Restriction) (d : Option ExprId) :
    Keeps (param s w d) := fun b => by
  obtain ⟨_, _, _, h, hs, -⟩ := param_spec s w d b
  rw [h]
  exact hs.1

theorem keeps_function (s : String) (ps : List Param) (body : ExprId) :
    Keeps (function s ps body) :=
  (keeps_name s).bind fun _ _ =>
    ⟨NameTable.le_refl _, ⟨#[], Array.append_empty.symm⟩, ⟨#[], Array.append_empty.symm⟩, ⟨_, rfl⟩⟩

theorem keeps_stmt (e : ExprId) : Keeps (stmt e) := fun _ =>
  ⟨NameTable.le_refl _, ⟨#[], Array.append_empty.symm⟩, ⟨#[], Array.append_empty.symm⟩, ⟨[],
    (List.append_nil _).symm⟩⟩

end Build

end Multimethod
