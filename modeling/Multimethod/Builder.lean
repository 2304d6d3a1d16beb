import Multimethod.Name
import Multimethod.Source

/-!
# Building sources

A source is built bottom up: each construction stores one node, parameter, class or definition and
answers how to refer to it. Each takes the next span of width one, so no two share a span, and
names are interned in the order in which they are given.
-/

namespace Multimethod

/-- A source under construction. -/
structure Builder where
  names : NameTable := {}
  source : Source := {}
  /-- Where the next span starts. -/
  offset : Nat := 0

/-- A construction step. -/
abbrev Build := StateM Builder

namespace Build

/-- The name of a text. -/
def name (s : String) : Build Name := fun b =>
  let (n, names) := NameTable.intern s b.names
  (n, { b with names })

/-- The next span of width one. -/
def span : Build Span := fun b => (.single b.offset, { b with offset := b.offset + 1 })

/-- Store a node. -/
def expr (node : Node) : Build ExprId := do
  let span ← span
  fun b =>
    let (id, arena) := b.source.arena.push ⟨node, span⟩
    (id, { b with source := { b.source with arena } })

/-- Store a list of expressions. -/
def list (ids : List ExprId) : Build Range := fun b =>
  let (r, arena) := b.source.arena.pushList ids
  (r, { b with source := { b.source with arena } })

/-! ## Expressions -/

def nil : Build ExprId := expr .nil

def bool (b : Bool) : Build ExprId := expr (.bool b)

def int (n : Int64) : Build ExprId := expr (.int n)

def float (x : Float) : Build ExprId := expr (.float x)

def self : Build ExprId := expr .self

def var (s : String) : Build ExprId := do expr (.var (← name s))

def assign (s : String) (value : ExprId) : Build ExprId := do expr (.assign (← name s) value)

/-- An instance variable, its name given without the sigil. -/
def ivar (s : String) : Build ExprId := do expr (.ivar (← name s))

def setIvar (s : String) (value : ExprId) : Build ExprId := do expr (.setIvar (← name s) value)

def const (s : String) : Build ExprId := do expr (.const (← name s))

/-- A call; the method's name comes before the list of arguments. -/
def call (receiver : Option ExprId) (method : String) (args : List ExprId) : Build ExprId := do
  let method ← name method
  let args ← list args
  expr (.call receiver method args)

def cond (test yes : ExprId) (no : Option ExprId) : Build ExprId := expr (.cond test yes no)

def loop (test body : ExprId) : Build ExprId := expr (.loop test body)

def andAlso (left right : ExprId) : Build ExprId := expr (.andAlso left right)

def orElse (left right : ExprId) : Build ExprId := expr (.orElse left right)

def ret (value : Option ExprId) : Build ExprId := expr (.ret value)

def block (stmts : List ExprId) : Build ExprId := do expr (.block (← list stmts))

def primitive (op : Primitive) (args : List ExprId) : Build ExprId := do
  expr (.primitive op (← list args))

/-! ## Parameters and items -/

def param (s : String) (restriction : Option Restriction) (default : Option ExprId) :
    Build Param := do
  let name ← name s
  return { name, restriction, default, span := ← span }

/-- Declare a class, or open it again. -/
def classDecl (s : String) (superclass : Option String) : Build Unit := do
  let name ← name s
  let superclass ← superclass.mapM Build.name
  let span ← span
  modify fun b => { b with
    source := { b.source with classes := b.source.classes ++ [⟨name, superclass, span⟩] } }

/-- Store a definition whose owner is known. -/
def define (owner : Option Owner) (s : String) (params : List Param) (body : ExprId) :
    Build Unit := do
  let name ← name s
  let span ← span
  modify fun b => { b with
    source := { b.source with
      definitions := b.source.definitions ++ [⟨name, owner, params, body, span⟩] } }

/-- A free function. -/
def function (s : String) (params : List Param) (body : ExprId) : Build Unit :=
  define none s params body

/-- A method of the instances of `cls`. -/
def method (cls s : String) (params : List Param) (body : ExprId) : Build Unit := do
  define (some (.instances (← name cls))) s params body

/-- A method of the class object `cls`. -/
def classMethod (cls s : String) (params : List Param) (body : ExprId) : Build Unit := do
  define (some (.classObject (← name cls))) s params body

/-- Add a top-level statement. -/
def stmt (id : ExprId) : Build Unit :=
  modify fun b => { b with source := { b.source with main := b.source.main ++ [id] } }

end Build

end Multimethod
