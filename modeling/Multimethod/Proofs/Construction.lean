import Multimethod.Builder
import Multimethod.Proofs.Expr.Ordered

/-!
# The course of a construction

A source is built in steps (`Build.Step`), each of which is given only expressions that earlier
steps have answered (`Construction.AllowsAll`). However the steps follow each other, the arena of
the source is in order, all that the source refers to is there, and it consists of what has been
built, each thing at the span that was next (`Construction.run_wellFounded`).
-/

namespace Multimethod

/-- An expression as it is asked for, with texts in the place of names. -/
inductive Phrase where
  | nil
  | bool (b : Bool)
  | int (n : Int64)
  | float (x : Float)
  | self
  | var (s : String)
  | assign (s : String) (value : ExprId)
  | ivar (s : String)
  | setIvar (s : String) (value : ExprId)
  | const (s : String)
  | call (receiver : Option ExprId) (method : String) (args : List ExprId)
  | cond (test yes : ExprId) (no : Option ExprId)
  | loop (test body : ExprId)
  | andAlso (left right : ExprId)
  | orElse (left right : ExprId)
  | ret (value : Option ExprId)
  | block (stmts : List ExprId)
  | primitive (op : Primitive) (args : List ExprId)

namespace Phrase

def build : Phrase → Build ExprId
  | .nil => Build.nil
  | .bool b => Build.bool b
  | .int n => Build.int n
  | .float x => Build.float x
  | .self => Build.self
  | .var s => Build.var s
  | .assign s value => Build.assign s value
  | .ivar s => Build.ivar s
  | .setIvar s value => Build.setIvar s value
  | .const s => Build.const s
  | .call receiver method args => Build.call receiver method args
  | .cond test yes no => Build.cond test yes no
  | .loop test body => Build.loop test body
  | .andAlso left right => Build.andAlso left right
  | .orElse left right => Build.orElse left right
  | .ret value => Build.ret value
  | .block stmts => Build.block stmts
  | .primitive op args => Build.primitive op args

/-- The parts that are given one by one. -/
def parts : Phrase → List ExprId
  | .nil | .bool _ | .int _ | .float _ | .self | .var _ | .ivar _ | .const _ => []
  | .assign _ value | .setIvar _ value => [value]
  | .call receiver _ _ => receiver.toList
  | .cond test yes no => test :: yes :: no.toList
  | .loop test body => [test, body]
  | .andAlso left right | .orElse left right => [left, right]
  | .ret value => value.toList
  | .block _ | .primitive _ _ => []

/-- The parts that are given as a list. -/
def list? : Phrase → Option (List ExprId)
  | .call _ _ args => some args
  | .block stmts => some stmts
  | .primitive _ args => some args
  | .nil | .bool _ | .int _ | .float _ | .self | .var _ | .assign _ _ | .ivar _ | .setIvar _ _
  | .const _ | .cond _ _ _ | .loop _ _ | .andAlso _ _ | .orElse _ _ | .ret _ => none

/-- All parts. -/
def refs (p : Phrase) : List ExprId := p.parts ++ p.list?.getD []

/-- Building an expression stores one node and its list, at the next span. -/
theorem build_spec (p : Phrase) (b : Builder) : ∃ node : Node,
    (p.build b).2.source = { b.source with
      arena := b.source.arena.add ⟨node, .single b.offset⟩ (p.list?.getD []) } ∧
    (p.build b).1 = ⟨b.source.arena.size⟩ ∧ (p.build b).2.offset = b.offset + 1 ∧
    node.parts = p.parts ∧
    node.range? = p.list?.map (⟨b.source.arena.lists.size, ·.length⟩) := by
  -- Without a list the table does not grow.
  have hnil (x : Expr) : { b.source with arena := b.source.arena.add x [] } =
      { b.source with arena := { b.source.arena with exprs := b.source.arena.exprs.push x } } := by
    rw [Arena.add, Array.append_empty]
  cases p with
  | call | block | primitive => exact ⟨_, rfl, rfl, rfl, rfl, rfl⟩
  | _ => exact ⟨_, (hnil ⟨_, _⟩).symm, rfl, rfl, rfl, rfl⟩

end Phrase

/-! ## Steps -/

/-- What is built: an expression, a parameter, or a class declaration or definition, which are known
by their positions. -/
inductive Item where
  | expr (e : ExprId)
  | param (p : Param)
  | classDecl (i : Nat)
  | definition (i : Nat)

namespace Item

def expr? : Item → Option ExprId
  | expr e => some e
  | param _ | classDecl _ | definition _ => none

def classDecl? : Item → Option Nat
  | classDecl i => some i
  | expr _ | param _ | definition _ => none

def definition? : Item → Option Nat
  | definition i => some i
  | expr _ | param _ | classDecl _ => none

end Item

namespace Build

/-- A construction step. -/
inductive Step where
  /-- A text is given a name, as for a restriction. -/
  | name (s : String)
  | expr (p : Phrase)
  | param (s : String) (restriction : Option Restriction) (default : Option ExprId)
  | classDecl (s : String) (superclass : Option String)
  | function (s : String) (params : List Param) (body : ExprId)
  | method (cls s : String) (params : List Param) (body : ExprId)
  | classMethod (cls s : String) (params : List Param) (body : ExprId)
  | stmt (e : ExprId)

namespace Step

/-- What a step builds, and what it leaves. -/
def run : Step → Builder → Option Item × Builder
  | name s, b => (none, (Build.name s b).2)
  | expr p, b => (some (.expr (p.build b).1), (p.build b).2)
  | param s restriction default, b =>
    let r := Build.param s restriction default b
    (some (.param r.1), r.2)
  | classDecl s superclass, b =>
    (some (.classDecl b.source.classes.length), (Build.classDecl s superclass b).2)
  | function s params body, b =>
    (some (.definition b.source.definitions.length), (Build.function s params body b).2)
  | method cls s params body, b =>
    (some (.definition b.source.definitions.length), (Build.method cls s params body b).2)
  | classMethod cls s params body, b =>
    (some (.definition b.source.definitions.length), (Build.classMethod cls s params body b).2)
  | stmt e, b => (none, (Build.stmt e b).2)

/-- The expressions that are given to a step, the defaults of parameters included. -/
def refs : Step → List ExprId
  | name _ | classDecl _ _ => []
  | expr p => p.refs
  | param _ _ default => default.toList
  | function _ params body | method _ _ params body | classMethod _ _ params body =>
    body :: params.flatMap (·.default.toList)
  | stmt e => [e]

/-- The expression that a step asks for. -/
def phrase? : Step → Option Phrase
  | expr p => some p
  | name _ | param .. | classDecl .. | function .. | method .. | classMethod .. | stmt _ => none

end Step

/-- All that a step can do to a source if the next span is at `n`: it is given some expressions,
asks for an expression or not, and builds something or not. -/
inductive Change (s : Source) (n : Nat) :
    List ExprId → Option Phrase → Option Item → Source → Nat → Prop where
  | name : Change s n [] none none s n
  | expr (p : Phrase) (node : Node) (hparts : node.parts = p.parts)
    (hrange : node.range? = p.list?.map (⟨s.arena.lists.size, ·.length⟩)) :
    Change s n p.refs (some p) (some (.expr ⟨s.arena.size⟩))
      { s with arena := s.arena.add ⟨node, .single n⟩ (p.list?.getD []) } (n + 1)
  | param (p : Param) (hspan : p.span = .single n) :
    Change s n p.default.toList none (some (.param p)) s (n + 1)
  | classDecl (d : ClassDecl) (hspan : d.span = .single n) :
    Change s n [] none (some (.classDecl s.classes.length))
      { s with classes := s.classes ++ [d] } (n + 1)
  | definition (d : Definition) (hspan : d.span = .single n) :
    Change s n (d.body :: d.params.flatMap (·.default.toList)) none
      (some (.definition s.definitions.length))
      { s with definitions := s.definitions ++ [d] } (n + 1)
  | stmt (e : ExprId) : Change s n [e] none none { s with main := s.main ++ [e] } n

theorem Step.run_change (st : Step) (b : Builder) : Change b.source b.offset st.refs st.phrase?
    (st.run b).1 (st.run b).2.source (st.run b).2.offset := by
  cases st with
  | name s => exact .name
  | expr p =>
    obtain ⟨node, hsource, he, hoffset, hparts, hrange⟩ := p.build_spec b
    have h := Change.expr (n := b.offset) p node hparts hrange
    rwa [← hsource, ← hoffset, ← he] at h
  | param s restriction default =>
    exact .param (s := b.source) (n := b.offset) (Build.param s restriction default b).1 rfl
  | classDecl s superclass => cases superclass <;> exact .classDecl _ rfl
  | function s params body => exact .definition ⟨_, _, params, body, _⟩ rfl
  | method cls s params body => exact .definition ⟨_, _, params, body, _⟩ rfl
  | classMethod cls s params body => exact .definition ⟨_, _, params, body, _⟩ rfl
  | stmt e => exact .stmt e

/-- Whatever is built takes one span. -/
theorem Change.offset_eq {s s' : Source} {n m : Nat} {refs : List ExprId} {p? : Option Phrase}
    {i? : Option Item} (h : Change s n refs p? i? s' m) : m = n + i?.toList.length := by
  cases h <;> rfl

end Build

/-! ## Sources -/

theorem List.getElem?_append_of_eq_some {α : Type} {l : List α} {k : Nat} {a : α}
    (h : l[k]? = some a) (r : List α) : (l ++ r)[k]? = some a := by
  rw [List.getElem?_append_left (List.getElem?_eq_some_iff.1 h).1, h]

theorem List.eq_or_getElem?_of_append {α : Type} {l : List α} {o : Option α} {k : Nat} {a : α}
    (h : (l ++ o.toList)[k]? = some a) : k = l.length ∧ o = some a ∨ l[k]? = some a := by
  rw [List.getElem?_append] at h
  split at h
  · exact .inr h
  · cases o with
    | none => simp at h
    | some b =>
      simp only [Option.toList_some, List.getElem?_singleton] at h
      split at h
      · exact .inl ⟨by omega, h⟩
      · cases h

namespace Source

/-- Where an item of a source stands. -/
def span? (s : Source) : Item → Option Span
  | .expr e => (s.arena.find? e).map (·.span)
  | .param p => some p.span
  | .classDecl i => s.classes[i]?.map (·.span)
  | .definition i => s.definitions[i]?.map (·.span)

/-- The parameters of all definitions. -/
def params (s : Source) : List Param := s.definitions.flatMap (·.params)

/-- All that stands in a source. -/
def items (s : Source) : List Item :=
  (List.range s.arena.size).map (.expr ⟨·⟩) ++ s.params.map .param ++
    (List.range s.classes.length).map .classDecl ++
    (List.range s.definitions.length).map .definition

/-- All expressions that a source refers to are there. -/
structure Closed (s : Source) : Prop where
  body : ∀ d ∈ s.definitions, d.body.index < s.arena.size
  default : ∀ d ∈ s.definitions, ∀ p ∈ d.params, ∀ e ∈ p.default, e.index < s.arena.size
  main : ∀ e ∈ s.main, e.index < s.arena.size

/-- A source consists of what has been built, in this order; `ps` are the expressions that have been
asked for. -/
structure Consists (s : Source) (ps : List Phrase) (built : List Item) : Prop where
  /-- Each item stands at a span of width one, the first at the first one and so on. -/
  span : ∀ {k i}, built[k]? = some i → s.span? i = some (.single k)
  /-- The expressions of the source have been built in the order of their positions. -/
  exprs : built.filterMap Item.expr? = (List.range s.arena.size).map (⟨·⟩)
  classes : built.filterMap Item.classDecl? = List.range s.classes.length
  definitions : built.filterMap Item.definition? = List.range s.definitions.length
  /-- Each expression has the parts and, in the table, the list that it was given. -/
  phrase : ∀ {k p}, ps[k]? = some p → ∃ x, s.arena.find? ⟨k⟩ = some x ∧ x.node.parts = p.parts ∧
    x.node.range?.map s.arena.list = p.list?
  length_phrases : ps.length = s.arena.size

variable {s s' : Source} {ps : List Phrase} {built : List Item} {refs : List ExprId}
  {p? : Option Phrase} {i? : Option Item} {n m : Nat}

open Build (Change)

/-! ### What one step keeps -/

theorem Closed.change (H : s.Closed) (hc : Change s n refs p? i? s' m)
    (hrefs : ∀ e ∈ refs, e.index < s.arena.size) : s'.Closed := by
  cases hc with
  | name | param => exact H
  | classDecl => exact ⟨H.body, H.default, H.main⟩
  | expr p node =>
    have there {e : ExprId} (he : e.index < s.arena.size) :
        e.index < (s.arena.add ⟨node, .single n⟩ (p.list?.getD [])).size :=
      (Arena.size_add _ _ _).symm ▸ Nat.lt_succ_of_lt he
    exact ⟨fun d hd => there (H.body d hd), fun d hd p hp e he => there (H.default d hd p hp e he),
      fun e he => there (H.main e he)⟩
  | definition d hspan =>
    refine ⟨fun d' hd' => ?_, fun d' hd' p hp e he => ?_, H.main⟩
    · rcases List.mem_append.1 hd' with hd' | hd'
      · exact H.body d' hd'
      · cases List.mem_singleton.1 hd'
        exact hrefs _ (.head _)
    · rcases List.mem_append.1 hd' with hd' | hd'
      · exact H.default d' hd' p hp e he
      · cases List.mem_singleton.1 hd'
        exact hrefs e (.tail _ (List.mem_flatMap.2 ⟨p, hp, by simpa using he⟩))
  | stmt e =>
    refine ⟨H.body, H.default, fun e' he' => ?_⟩
    rcases List.mem_append.1 he' with he' | he'
    · exact H.main e' he'
    · exact hrefs e' he'

theorem ordered_change (H : s.arena.Ordered) (hc : Change s n refs p? i? s' m)
    (hrefs : ∀ e ∈ refs, e.index < s.arena.size) : s'.arena.Ordered := by
  cases hc with
  | name | param | classDecl | definition | stmt => exact H
  | expr p node hparts hrange =>
    refine H.add (fun d hd => ?_) (fun d hd => ?_) fun r hr => ?_
    · exact hrefs d (List.mem_append_left _ (hparts ▸ hd))
    · exact hrefs d (List.mem_append_right _ hd)
    · rw [hrange] at hr
      obtain ⟨l, hl, rfl⟩ := Option.map_eq_some_iff.1 hr
      rw [hl, Option.getD_some]

/-- What stands in a source stays where it is. -/
theorem span?_change (hc : Change s n refs p? i? s' m) {i : Item} {sp : Span}
    (h : s.span? i = some sp) : s'.span? i = some sp := by
  cases hc with
  | name | param | stmt => exact h
  | expr p node =>
    cases i with
    | expr e =>
      obtain ⟨x, hx, rfl⟩ := Option.map_eq_some_iff.1 h
      exact congrArg (Option.map _) (Arena.find?_add_of_find? hx)
    | param | classDecl | definition => exact h
  | classDecl d =>
    cases i with
    | classDecl j =>
      obtain ⟨d', hd', rfl⟩ := Option.map_eq_some_iff.1 h
      exact congrArg (Option.map _) (List.getElem?_append_of_eq_some hd' _)
    | expr | param | definition => exact h
  | definition d =>
    cases i with
    | definition j =>
      obtain ⟨d', hd', rfl⟩ := Option.map_eq_some_iff.1 h
      exact congrArg (Option.map _) (List.getElem?_append_of_eq_some hd' _)
    | expr | param | classDecl => exact h

/-- What is built stands at the next span. -/
theorem span?_built (hc : Change s n refs p? i? s' m) :
    ∀ i ∈ i?, s'.span? i = some (.single n) := by
  cases hc with
  | name | stmt => simp
  | expr p node => simp [span?, Arena.find?_add]
  | param p hspan => simp [span?, hspan]
  | classDecl d hspan => simp [span?, hspan]
  | definition d hspan => simp [span?, hspan]

namespace Consists

theorem empty : Consists {} [] [] := by
  constructor <;> simp [Arena.size]

/-- An expression keeps its parts and its list. -/
theorem phrase_add (C : s.Consists ps built) (H : s.arena.Ordered) (y : Expr) (es : List ExprId)
    {k : Nat} {p : Phrase} (h : ps[k]? = some p) :
    ∃ x, (s.arena.add y es).find? ⟨k⟩ = some x ∧ x.node.parts = p.parts ∧
      x.node.range?.map (s.arena.add y es).list = p.list? := by
  obtain ⟨x, hx, hparts, hlist⟩ := C.phrase h
  refine ⟨x, Arena.find?_add_of_find? hx, hparts, ?_⟩
  rw [← hlist]
  exact Option.map_congr (H.list_add hx y es)

theorem change (C : s.Consists ps built) (H : s.arena.Ordered)
    (hc : Change s built.length refs p? i? s' m) :
    s'.Consists (ps ++ p?.toList) (built ++ i?.toList) where
  span {k i} hk := by
    rcases List.eq_or_getElem?_of_append hk with ⟨rfl, hi⟩ | hold
    · exact span?_built hc i hi
    · exact span?_change hc (C.span hold)
  exprs := by
    rw [List.filterMap_append, C.exprs]
    cases hc with
    | expr p node => simp [Item.expr?, Arena.size_add, List.range_succ]
    | _ => simp [Item.expr?, List.filterMap_cons]
  classes := by
    rw [List.filterMap_append, C.classes]
    cases hc with
    | classDecl d => simp [Item.classDecl?, List.range_succ]
    | _ => simp [Item.classDecl?, List.filterMap_cons]
  definitions := by
    rw [List.filterMap_append, C.definitions]
    cases hc with
    | definition d => simp [Item.definition?, List.range_succ]
    | _ => simp [Item.definition?, List.filterMap_cons]
  phrase {k p} hk := by
    rcases List.eq_or_getElem?_of_append hk with ⟨rfl, hp⟩ | hold
    · cases hc with
      | expr q node hparts hrange =>
        cases hp
        refine ⟨⟨node, .single built.length⟩, ?_, hparts, ?_⟩
        · rw [Arena.find?_add, if_pos C.length_phrases]
        · rw [hrange]
          cases p.list? with
          | none => rfl
          | some l => exact congrArg some (Arena.list_at_end rfl)
      | _ => cases hp
    · cases hc with
      | expr q node => exact C.phrase_add H _ _ hold
      | _ => exact C.phrase hold
  length_phrases := by
    rw [List.length_append, C.length_phrases]
    cases hc with
    | expr p node => exact (Arena.size_add _ _ _).symm
    | _ => rfl

/-- All expressions that have been built are there. -/
theorem lt_size_of_answered (C : s.Consists ps built) {e : ExprId}
    (h : e ∈ built.filterMap Item.expr?) : e.index < s.arena.size := by
  rw [C.exprs] at h
  obtain ⟨k, hk, rfl⟩ := List.mem_map.1 h
  exact List.mem_range.1 hk

end Consists

end Source

/-! ## Constructions -/

/-- A source under construction, with the expressions that have been asked for and all that has been
built, in order. -/
structure Construction where
  builder : Builder
  phrases : List Phrase := []
  built : List Item := []

namespace Construction

open Build (Step)

def source (c : Construction) : Source := c.builder.source

/-- The expressions that have been answered. -/
def answered (c : Construction) : List ExprId := c.built.filterMap Item.expr?

/-- Nothing has been built yet; the names may come from elsewhere. -/
def start (names : NameTable) : Construction where
  builder := { names }

def step (c : Construction) (st : Step) : Construction :=
  let r := st.run c.builder
  { builder := r.2
    phrases := c.phrases ++ st.phrase?.toList
    built := c.built ++ r.1.toList }

def run (c : Construction) (steps : List Step) : Construction := steps.foldl step c

/-- A step is given only expressions that have been answered. -/
def Allows (c : Construction) (st : Step) : Prop := ∀ e ∈ st.refs, e ∈ c.answered

instance (c : Construction) (st : Step) : Decidable (c.Allows st) :=
  inferInstanceAs (Decidable (∀ e ∈ st.refs, e ∈ c.answered))

/-- Each step is given only expressions that have been answered before. -/
def AllowsAll : Construction → List Step → Prop
  | _, [] => True
  | c, st :: steps => c.Allows st ∧ (c.step st).AllowsAll steps

instance decidableAllowsAll :
    (c : Construction) → (steps : List Step) → Decidable (c.AllowsAll steps)
  | _, [] => inferInstanceAs (Decidable True)
  | c, st :: steps =>
    @instDecidableAnd (c.Allows st) _ _ (decidableAllowsAll (c.step st) steps)

/-- The source is in order and refers to nothing that is not there, and it consists of what has been
built. -/
structure Sound (c : Construction) : Prop where
  ordered : c.source.arena.Ordered
  closed : c.source.Closed
  consists : c.source.Consists c.phrases c.built
  offset : c.builder.offset = c.built.length

variable {c : Construction}

theorem Sound.start (names : NameTable) : (start names).Sound :=
  ⟨.empty, by constructor <;> simp [source, Construction.start], .empty, rfl⟩

theorem Sound.step (S : c.Sound) {st : Step} (h : c.Allows st) : (c.step st).Sound := by
  -- An expression that has been answered is stored before whatever refers to it.
  have hrefs (e) (he : e ∈ st.refs) : e.index < c.source.arena.size :=
    S.consists.lt_size_of_answered (h e he)
  have hc := st.run_change c.builder
  rw [S.offset] at hc
  refine ⟨Source.ordered_change S.ordered hc hrefs, S.closed.change hc hrefs,
    S.consists.change S.ordered hc, ?_⟩
  exact hc.offset_eq.trans (List.length_append).symm

theorem Sound.run (S : c.Sound) {steps : List Step} (h : c.AllowsAll steps) :
    (c.run steps).Sound := by
  induction steps generalizing c with
  | nil => exact S
  | cons st steps ih => exact ih (S.step h.1) h.2

end Construction

end Multimethod
