import Multimethod.Machine.Call

/-!
# Steps and runs

`step` takes one step; `run` takes as many as are needed, up to a given number.
-/

namespace Multimethod.Machine

variable (p : Program)

/-- Evaluate the next argument of a call, or make it. -/
def nextArgument (c : Config) (site : Site) (receiver : Option Value) (method : Name)
    (done : List Value) : List Term → Config
  | [] => c.run (.call site receiver method done)
  | t :: ts => c.push (.argument site receiver method done ts) (.eval t)

/-- Evaluate the next operand of a primitive operation, or apply it. -/
def nextOperand (c : Config) (site : Site) (op : Primitive) (done : List Value) :
    List Term → Config
  | [] => c.run (.apply site op done)
  | t :: ts => c.push (.operand site op done ts) (.eval t)

/-- Go on with the statements of a block after one of value `last`. -/
def nextStmt (c : Config) (id : ExprId) (last : Value) : List Term → Config
  | [] => c.run (.value id last)
  | t :: ts => c.push (.stmt id ts) (.eval t)

/-- Begin to evaluate a term. -/
def eval (c : Config) : Term → Config
  | .nil site => c.run (.value site.id .nil)
  | .bool site b => c.run (.value site.id (.bool b))
  | .int site n => c.run (.value site.id (.int n))
  | .float site x => c.run (.value site.id (.float x))
  | .self site => c.run (.value site.id c.self)
  | .var site n => c.run (.value site.id (c.activation.locals[n]?.getD .nil))
  | .assign site n value => c.push (.assign site.id n) (.eval value)
  | .ivar site n => c.run (.value site.id (c.ivar n))
  | .setIvar site n value => c.push (.setIvar site.id n) (.eval value)
  | .const site n =>
    match p.hierarchy.find? n with
    | some cls => c.run (.value site.id (.cls cls))
    | none => c.fail (.unbound (p.names.text n)) site.span
  | .call site receiver method args => c.push (.receiver site method args) (.eval receiver)
  | .send site method args => nextArgument c site none method [] args
  | .ifThen site test yes => c.push (.choose site.id yes none) (.eval test)
  | .ifElse site test yes no => c.push (.choose site.id yes (some no)) (.eval test)
  | .loop site test body => c.push (.loopTest site.id test body) (.eval test)
  | .andAlso site left right => c.push (.andAlso site.id right) (.eval left)
  | .orElse site left right => c.push (.orElse site.id right) (.eval left)
  | .ret _ => c.run (.unwind .nil)
  | .retValue _ value => c.push .ret (.eval value)
  | .block site stmts => nextStmt c site.id .nil stmts
  | .primitive site op args => nextOperand c site op [] args

/-- Put a value to its use; the configuration no longer holds the work `k`. -/
def resume (c : Config) (v : Value) : Kont → Config
  | .assign id n => (c.setLocal n v).run (.value id v)
  | .setIvar id n => (c.setIvar n v).run (.value id v)
  | .receiver site method args => nextArgument c site (some v) method [] args
  | .argument site receiver method done todo =>
    nextArgument c site receiver method (done ++ [v]) todo
  | .choose id yes no =>
    match v.truthy, no with
    | true, _ => c.push (.same id) (.eval yes)
    | false, some no => c.push (.same id) (.eval no)
    | false, none => c.run (.value id .nil)
  | .loopTest id test body =>
    if v.truthy then c.push (.loopBody id test body) (.eval body) else c.run (.value id .nil)
  | .loopBody id test body => c.push (.loopTest id test body) (.eval test)
  | .andAlso id right =>
    if v.truthy then c.push (.same id) (.eval right) else c.run (.value id v)
  | .orElse id right =>
    if v.truthy then c.run (.value id v) else c.push (.same id) (.eval right)
  | .ret => c.run (.unwind v)
  | .stmt id todo => nextStmt c id v todo
  | .operand site op done todo => nextOperand c site op (done ++ [v]) todo
  | .same id => c.run (.value id v)
  | .default q rest code => (c.setLocal q.name v).run (.bind rest [] code)
  | .top todo => c.run (.top v todo)

/-- Bind the next parameter, or run the body. -/
def bind (c : Config) (code : Term) : List Param → List Value → Config
  | [], _ => c.run (.eval code)
  | q :: qs, v :: vs => (c.setLocal q.name v).run (.bind qs vs code)
  | q :: qs, [] =>
    match q.default with
    | some d => c.push (.default q qs code) (.eval (Arena.termAt p.terms d))
    | none => (c.setLocal q.name .nil).run (.bind qs [] code)

/-- Take one step. Calls may be nested up to `limit`. -/
def step (limit : Nat) (c : Config) : Config :=
  match c.control with
  | .eval t => eval p c t
  | .value _ v =>
    match c.activation.konts with
    | [] => leave c v
    | k :: ks => resume (c.pop ks) v k
  | .call site receiver method args => call p limit c site receiver method args
  | .apply site op operands =>
    match op.apply operands with
    | .ok v => c.run (.value site.id v)
    | .error cause => c.fail cause site.span
  | .bind params args code => bind p c code params args
  | .unwind v =>
    match c.activation.konts with
    | [] => leave c v
    | .default q rest code :: ks => resume (c.pop ks) v (.default q rest code)
    | _ :: ks => (c.pop ks).run (.unwind v)
  | .raise e =>
    match c.activation.konts with
    | [] => abandon c e
    | _ :: ks => (c.pop ks).run (.raise e)
  | .top last [] => c.run (.done (.ok last))
  | .top _ (t :: ts) => c.push (.top ts) (.eval t)
  | .done _ => c

/-- Where a run begins: nothing but the main object exists. -/
def start : Config where
  control := .top .nil p.main
  activation := { unit := none, receiver := none }
  heap := (({} : Heap).allocate .object).2

/-- How a run from a configuration ends, if it does so within so many steps. -/
def runFrom (limit : Nat) : Nat → Config → Option Outcome
  | 0, c => c.outcome?
  | n + 1, c =>
    match c.control with
    | .done result => some ⟨result, c.heap⟩
    | _ => runFrom limit n (step p limit c)

/-- How a run of a program ends, if it does so within so many steps. -/
def run (limit steps : Nat) : Option Outcome := runFrom p limit steps (start p)

end Multimethod.Machine
