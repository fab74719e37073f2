import Mathlib

/-! `Calculator::CalculateTokens` of `rewriter/calculator/calculator.cc`: the parser with its counter
of operations, and the documented grammar with the syntax trees that derive from it.  What the
operations compute is a parameter. -/

namespace Mozkey.Rewriter.Calculator

inductive Function where
  | log
  | ln
  | exp
  | sqrt
  | sin
  | cos
  | tan
  | abs
  deriving DecidableEq

/-- The value of a token that is no number is not read. -/
inductive Token (α : Type) where
  | plus
  | minus
  | times
  | divide
  | mod
  | pow
  | lp
  | rp
  | integer (value : α)
  | function (f : Function)
  deriving DecidableEq

/-- The operations; one without result ends the calculation. -/
structure Arithmetic (α : Type) where
  negate : α → α
  apply : Function → α → Option α
  pow : α → α → Option α
  times : α → α → Option α
  divide : α → α → Option α
  mod : α → α → Option α
  plus : α → α → Option α
  minus : α → α → Option α

def kMaxOperations : Nat := 256

structure ParserContext (α : Type) where
  tokens : List (Token α)
  operationCount : Nat := 0
  deriving DecidableEq

section parser

variable {α : Type}

/-- What every function of the parser begins with. -/
def ParserContext.call (ctx : ParserContext α) : Option (ParserContext α) :=
  if kMaxOperations < ctx.operationCount + 1 then none
  else some { ctx with operationCount := ctx.operationCount + 1 }

def ParserContext.close (ctx : ParserContext α) : Option (ParserContext α) :=
  match ctx.tokens with
  | .rp :: tokens => some { ctx with tokens }
  | _ => none

variable (arith : Arithmetic α)

/-- The operator of the loop of `ParseTerm`, and the tokens behind it. -/
def termOperator : List (Token α) → Option ((α → α → Option α) × List (Token α))
  | .times :: tokens => some (arith.times, tokens)
  | .divide :: tokens => some (arith.divide, tokens)
  | .mod :: tokens => some (arith.mod, tokens)
  | _ => none

/-- The operator of the loop of `ParseExpression`, and the tokens behind it. -/
def expressionOperator : List (Token α) → Option ((α → α → Option α) × List (Token α))
  | .plus :: tokens => some (arith.plus, tokens)
  | .minus :: tokens => some (arith.minus, tokens)
  | _ => none

mutual

/-- The fuel goes down with every call and every round of a loop, and `operationCount` goes up. -/
def parsePrimary : Nat → ParserContext α → Option (α × ParserContext α)
  | 0, _ => none
  | fuel + 1, ctx => do
    let ctx ← ctx.call
    match ctx.tokens with
    | .integer value :: tokens => some (value, { ctx with tokens })
    | .lp :: tokens =>
      let (value, ctx) ← parseExpression fuel { ctx with tokens }
      let ctx ← ctx.close
      some (value, ctx)
    | .function f :: .lp :: tokens =>
      let (arg, ctx) ← parseExpression fuel { ctx with tokens }
      let ctx ← ctx.close
      let value ← arith.apply f arg
      some (value, ctx)
    | _ => none

def parseUnary : Nat → ParserContext α → Option (α × ParserContext α)
  | 0, _ => none
  | fuel + 1, ctx => do
    let ctx ← ctx.call
    match ctx.tokens with
    | [] => none
    | .plus :: tokens => parseUnary fuel { ctx with tokens }
    | .minus :: tokens =>
      let (rhs, ctx) ← parseUnary fuel { ctx with tokens }
      some (arith.negate rhs, ctx)
    | _ => parsePrimary fuel ctx

def parseFactor : Nat → ParserContext α → Option (α × ParserContext α)
  | 0, _ => none
  | fuel + 1, ctx => do
    let ctx ← ctx.call
    let (value, ctx) ← parseUnary fuel ctx
    match ctx.tokens with
    | .pow :: tokens =>
      let (rhs, ctx) ← parseFactor fuel { ctx with tokens }
      let value ← arith.pow value rhs
      some (value, ctx)
    | _ => some (value, ctx)

def parseTerm : Nat → ParserContext α → Option (α × ParserContext α)
  | 0, _ => none
  | fuel + 1, ctx => do
    let ctx ← ctx.call
    let (value, ctx) ← parseFactor fuel ctx
    parseTermLoop fuel value ctx

def parseTermLoop : Nat → α → ParserContext α → Option (α × ParserContext α)
  | 0, value, ctx => if (termOperator arith ctx.tokens).isSome then none else some (value, ctx)
  | fuel + 1, value, ctx =>
    match termOperator arith ctx.tokens with
    | none => some (value, ctx)
    | some (op, tokens) => do
      let (rhs, ctx) ← parseFactor fuel { ctx with tokens }
      let value ← op value rhs
      parseTermLoop fuel value ctx

def parseExpression : Nat → ParserContext α → Option (α × ParserContext α)
  | 0, _ => none
  | fuel + 1, ctx => do
    let ctx ← ctx.call
    let (value, ctx) ← parseTerm fuel ctx
    parseExpressionLoop fuel value ctx

def parseExpressionLoop : Nat → α → ParserContext α → Option (α × ParserContext α)
  | 0, value, ctx => if (expressionOperator arith ctx.tokens).isSome then none else some (value, ctx)
  | fuel + 1, value, ctx =>
    match expressionOperator arith ctx.tokens with
    | none => some (value, ctx)
    | some (op, tokens) => do
      let (rhs, ctx) ← parseTerm fuel { ctx with tokens }
      let value ← op value rhs
      parseExpressionLoop fuel value ctx

end

def calculateTokensFrom (fuel : Nat) (tokens : List (Token α)) : Option α := do
  let (value, ctx) ← parseExpression arith fuel { tokens }
  if ctx.tokens = [] then some value else none

def calculateTokens (tokens : List (Token α)) : Option α :=
  calculateTokensFrom arith kMaxOperations tokens

end parser

/-! The grammar. -/

/-- The levels of precedence, from the highest on. -/
inductive Level where
  | primary
  | unary
  | factor
  | term
  | expression
  deriving DecidableEq

inductive TermOperator where
  | times
  | divide
  | mod
  deriving DecidableEq

inductive ExpressionOperator where
  | plus
  | minus
  deriving DecidableEq

/-- The derivations: `*`, `/`, `%`, `+` and `-` associate to the left and `^` to the right, and the
signs bind closer than `^`. -/
inductive Tree (α : Type) : Level → Type where
  | integer (value : α) : Tree α .primary
  | parens (e : Tree α .expression) : Tree α .primary
  | call (f : Function) (arg : Tree α .expression) : Tree α .primary
  | primary (p : Tree α .primary) : Tree α .unary
  | plus (u : Tree α .unary) : Tree α .unary
  | minus (u : Tree α .unary) : Tree α .unary
  | unary (u : Tree α .unary) : Tree α .factor
  | pow (base : Tree α .unary) (exponent : Tree α .factor) : Tree α .factor
  | factor (f : Tree α .factor) : Tree α .term
  | termOperation (t : Tree α .term) (op : TermOperator) (f : Tree α .factor) : Tree α .term
  | term (t : Tree α .term) : Tree α .expression
  | expressionOperation (e : Tree α .expression) (op : ExpressionOperator) (t : Tree α .term) :
    Tree α .expression

section trees

variable {α : Type}

def TermOperator.token : TermOperator → Token α
  | .times => .times
  | .divide => .divide
  | .mod => .mod

def ExpressionOperator.token : ExpressionOperator → Token α
  | .plus => .plus
  | .minus => .minus

def TermOperator.compute (arith : Arithmetic α) : TermOperator → α → α → Option α
  | .times => arith.times
  | .divide => arith.divide
  | .mod => arith.mod

def ExpressionOperator.compute (arith : Arithmetic α) : ExpressionOperator → α → α → Option α
  | .plus => arith.plus
  | .minus => arith.minus

namespace Tree

def tokens : {level : Level} → Tree α level → List (Token α)
  | _, integer value => [.integer value]
  | _, parens e => .lp :: (e.tokens ++ [.rp])
  | _, call f arg => .function f :: .lp :: (arg.tokens ++ [.rp])
  | _, primary p => p.tokens
  | _, plus u => .plus :: u.tokens
  | _, minus u => .minus :: u.tokens
  | _, unary u => u.tokens
  | _, pow base exponent => base.tokens ++ .pow :: exponent.tokens
  | _, factor f => f.tokens
  | _, termOperation t op f => t.tokens ++ op.token :: f.tokens
  | _, term t => t.tokens
  | _, expressionOperation e op t => e.tokens ++ op.token :: t.tokens

def evaluate (arith : Arithmetic α) : {level : Level} → Tree α level → Option α
  | _, integer value => some value
  | _, parens e => e.evaluate arith
  | _, call f arg => (arg.evaluate arith).bind (arith.apply f)
  | _, primary p => p.evaluate arith
  | _, plus u => u.evaluate arith
  | _, minus u => (u.evaluate arith).map arith.negate
  | _, unary u => u.evaluate arith
  | _, pow base exponent =>
    (base.evaluate arith).bind fun x => (exponent.evaluate arith).bind (arith.pow x)
  | _, factor f => f.evaluate arith
  | _, termOperation t op f =>
    (t.evaluate arith).bind fun x => (f.evaluate arith).bind (op.compute arith x)
  | _, term t => t.evaluate arith
  | _, expressionOperation e op t =>
    (e.evaluate arith).bind fun x => (t.evaluate arith).bind (op.compute arith x)

/-- The calls of the functions of the parser: one for a node, and one for the whole of a term or an
expression that is a loop. -/
def calls : {level : Level} → Tree α level → Nat
  | _, integer _ => 1
  | _, parens e => e.calls + 1
  | _, call _ arg => arg.calls + 1
  | _, primary p => p.calls + 1
  | _, plus u => u.calls + 1
  | _, minus u => u.calls + 1
  | _, unary u => u.calls + 1
  | _, pow base exponent => base.calls + exponent.calls + 1
  | _, factor f => f.calls + 1
  | _, termOperation t _ f => t.calls + f.calls
  | _, term t => t.calls + 1
  | _, expressionOperation e _ t => e.calls + t.calls

end Tree

end trees

end Mozkey.Rewriter.Calculator
