import Mozkey.Rewriter.CalculatorGrammar
import Mozkey.Storage.Louds.BitStream

/-! `Calculator::CalculateString` of `rewriter/calculator/calculator.cc`: how a key becomes tokens, the
arithmetic with the checks that the parser makes, and the errors that do not end a calculation. -/

namespace Mozkey.Rewriter.Calculator

open Storage

/-- The numbers, with `std::log10` and the other functions of the library. -/
structure Numbers (α : Type) where
  isNan : α → Bool
  isInfinite : α → Bool
  isNegative : α → Bool
  isZero : α → Bool
  negate : α → α
  isNan_negate : ∀ x, isNan (negate x) = isNan x
  isInfinite_negate : ∀ x, isInfinite (negate x) = isInfinite x
  log10 : α → α
  log : α → α
  exp : α → α
  sqrt : α → α
  sin : α → α
  cos : α → α
  tan : α → α
  abs : α → α
  pow : α → α → α
  times : α → α → α
  divide : α → α → α
  fmod : α → α → α
  plus : α → α → α
  minus : α → α → α
  simpleAtod : Bytes → Option α
  /-- `StrFormat("%.8g", ...)`. -/
  format : α → Bytes

variable {α : Type}

namespace Numbers

variable (numbers : Numbers α)

def isFinite (x : α) : Bool := !numbers.isNan x && !numbers.isInfinite x

def checked (x : α) : Option α := if numbers.isFinite x then some x else none

def function : Function → α → α
  | .log => numbers.log10
  | .ln => numbers.log
  | .exp => numbers.exp
  | .sqrt => numbers.sqrt
  | .sin => numbers.sin
  | .cos => numbers.cos
  | .tan => numbers.tan
  | .abs => numbers.abs

def applyFunction (f : Function) (arg : α) : Option α :=
  match f with
  | .sqrt => if numbers.isNegative arg then none else some (numbers.function .sqrt arg)
  | f => some (numbers.function f arg)

def arithmetic : Arithmetic α where
  negate := numbers.negate
  apply := numbers.applyFunction
  pow x y := numbers.checked (numbers.pow x y)
  times x y := numbers.checked (numbers.times x y)
  divide x y := if numbers.isZero y then none else numbers.checked (numbers.divide x y)
  mod x y := if numbers.isZero y then none else numbers.checked (numbers.fmod x y)
  plus x y := numbers.checked (numbers.plus x y)
  minus x y := numbers.checked (numbers.minus x y)

def safeStrToDouble (str : Bytes) : Option α :=
  (numbers.simpleAtod str).filter numbers.isFinite

end Numbers

def kMaxInputLength : Nat := 2048

def kMaxLengthOfOperator : Nat := 4

def operatorMap : Bytes → Option (Token α)
  | [0x2b] => some .plus
  | [0x2d] => some .minus
  | [0xe3, 0x83, 0xbc] => some .minus
  | [0x2a] => some .times
  | [0x2f] => some .divide
  | [0xe3, 0x83, 0xbb] => some .divide
  | [0x25] => some .mod
  | [0x5e] => some .pow
  | [0x28] => some .lp
  | [0x29] => some .rp
  | [0x6c, 0x6f, 0x67] => some (.function .log)
  | [0x6c, 0x6e] => some (.function .ln)
  | [0x65, 0x78, 0x70] => some (.function .exp)
  | [0x73, 0x71, 0x72, 0x74] => some (.function .sqrt)
  | [0x73, 0x69, 0x6e] => some (.function .sin)
  | [0x63, 0x6f, 0x73] => some (.function .cos)
  | [0x74, 0x61, 0x6e] => some (.function .tan)
  | [0x61, 0x62, 0x73] => some (.function .abs)
  | _ => none

def isSpace (c : UInt8) : Bool := c == 0x20 || c == 0x09

def isValueByte (c : UInt8) : Bool := (0x30 ≤ c && c ≤ 0x39) || c == 0x2e

def isAlpha (c : UInt8) : Bool := (0x41 ≤ c && c ≤ 0x5a) || (0x61 ≤ c && c ≤ 0x7a)

def toLower (c : UInt8) : UInt8 := if 0x41 ≤ c && c ≤ 0x5a then c + 0x20 else c

def readOperator (rest : Bytes) : Option (Token α × Bytes) :=
  (List.range' 1 kMaxLengthOfOperator).findSome? fun length =>
    if rest.length < length then none
    else (operatorMap (rest.take length)).map fun token => (token, rest.drop length)

/-- A round of the loop of `Tokenize`, behind the spaces. -/
def readToken (numbers : Numbers α) (rest : Bytes) : Option (Token α × Bytes) :=
  if rest.takeWhile isValueByte ≠ [] then
    (numbers.safeStrToDouble (rest.takeWhile isValueByte)).map fun value =>
      (.integer value, rest.dropWhile isValueByte)
  else if rest.takeWhile isAlpha ≠ [] then
    (operatorMap ((rest.takeWhile isAlpha).map toLower)).map fun token =>
      (token, rest.dropWhile isAlpha)
  else readOperator rest

/-- The loop of `Tokenize`; every round reads a byte or more. -/
def readTokens (numbers : Numbers α) : (rounds : Nat) → Bytes → Option (List (Token α))
  | 0, rest => if rest.dropWhile isSpace = [] then some [] else none
  | rounds + 1, rest =>
    if rest.dropWhile isSpace = [] then some []
    else do
      let (token, rest) ← readToken numbers (rest.dropWhile isSpace)
      let tokens ← readTokens numbers rounds rest
      some (token :: tokens)

def Token.isValue : Token α → Bool
  | .integer _ => true
  | _ => false

def Token.isOperator : Token α → Bool
  | .integer _ | .lp | .rp => false
  | _ => true

def tokenize (numbers : Numbers α) (expressionBody : Bytes) : Option (List (Token α)) := do
  let tokens ← readTokens numbers expressionBody.length expressionBody
  if tokens.countP Token.isOperator = 0 ∨ tokens.countP Token.isValue = 0 then none
  else some tokens

def expressionBody (key : Bytes) : Option Bytes :=
  if key.head? = some 0x3d ∧ key.getLast? = some 0x3d then none
  else if key.head? = some 0x3d then some key.tail
  else if key.getLast? = some 0x3d then some key.dropLast
  else none

/-- The tokens of a key; `normalize` is `FullWidthAsciiToHalfWidthAscii`. -/
def expressionTokens (numbers : Numbers α) (normalize : Bytes → Bytes) (key : Bytes) :
    Option (List (Token α)) :=
  if key = [] ∨ kMaxInputLength < key.length then none
  else (expressionBody (normalize key)).bind (tokenize numbers)

def resultValue (numbers : Numbers α) (normalize : Bytes → Bytes) (key : Bytes) : Option α :=
  (expressionTokens numbers normalize key).bind (calculateTokens numbers.arithmetic)

def calculateString (numbers : Numbers α) (normalize : Bytes → Bytes) (key : Bytes) : Option Bytes :=
  (resultValue numbers normalize key).map numbers.format

namespace Tree

variable {level : Level} (numbers : Numbers α)

def All (p : (level : Level) → Tree α level → Prop) : {level : Level} → Tree α level → Prop
  | _, integer value => p _ (integer value)
  | _, parens e => p _ (parens e) ∧ e.All p
  | _, call f arg => p _ (call f arg) ∧ arg.All p
  | _, primary u => p _ (primary u) ∧ u.All p
  | _, plus u => p _ (plus u) ∧ u.All p
  | _, minus u => p _ (minus u) ∧ u.All p
  | _, unary u => p _ (unary u) ∧ u.All p
  | _, pow base exponent => p _ (pow base exponent) ∧ base.All p ∧ exponent.All p
  | _, factor f => p _ (factor f) ∧ f.All p
  | _, termOperation t op f => p _ (termOperation t op f) ∧ t.All p ∧ f.All p
  | _, term t => p _ (term t) ∧ t.All p
  | _, expressionOperation e op t => p _ (expressionOperation e op t) ∧ e.All p ∧ t.All p

def DividesByNonzero : (level : Level) → Tree α level → Prop
  | _, termOperation _ op f =>
    op ≠ .times → ∀ y, f.evaluate numbers.arithmetic = some y → numbers.isZero y = false
  | _, _ => True

/-- A function is not applied to an argument for which it has no finite result. -/
def FunctionFinite : (level : Level) → Tree α level → Prop
  | _, call f arg =>
    ∀ x, arg.evaluate numbers.arithmetic = some x → numbers.isFinite (numbers.function f x)
  | _, _ => True

/-- The tree computes a number, and does not divide by zero for it. -/
def NoError (level : Level) (tree : Tree α level) : Prop :=
  (∀ value, tree.evaluate numbers.arithmetic = some value → numbers.isFinite value) ∧
    tree.DividesByNonzero numbers

end Tree

/-- The derivations of a key that the calculator takes. -/
def Derives (numbers : Numbers α) (normalize : Bytes → Bytes) (key : Bytes)
    (tree : Tree α .expression) : Prop :=
  expressionTokens numbers normalize key = some tree.tokens ∧ tree.calls ≤ kMaxOperations

/-- A string comes from a finite value, and from a calculation without errors. -/
def FailsOnErrors (numbers : Numbers α) (normalize : Bytes → Bytes) (key : Bytes) : Prop :=
  ∀ string, calculateString numbers normalize key = some string → ∃ value,
    resultValue numbers normalize key = some value ∧ string = numbers.format value ∧
      numbers.isFinite value ∧
      ∀ tree, Derives numbers normalize key tree →
        tree.evaluate numbers.arithmetic = some value → tree.All (Tree.NoError numbers)

section finite

variable {numbers : Numbers α} {level : Level} {x y value : α}

theorem Numbers.checked_eq_some (h : numbers.checked x = some y) : numbers.isFinite y := by
  rw [checked] at h
  split at h
  · rename_i hfinite
    cases h
    exact hfinite
  · cases h

theorem Numbers.isFinite_negate : numbers.isFinite (numbers.negate x) = numbers.isFinite x := by
  rw [isFinite, numbers.isNan_negate, numbers.isInfinite_negate, isFinite]

theorem Numbers.applyFunction_eq_some {f : Function} (h : numbers.applyFunction f x = some y) :
    y = numbers.function f x := by
  cases f
  case sqrt =>
    rw [applyFunction] at h
    split at h <;> cases h
    rfl
  all_goals
    cases h
    rfl

theorem Numbers.divided_eq_some (h : (if numbers.isZero y then none else numbers.checked x) = some value) :
    numbers.isFinite value ∧ numbers.isZero y = false := by
  split at h
  · cases h
  · rename_i hzero
    exact ⟨checked_eq_some h, eq_false_of_ne_true hzero⟩

theorem TermOperator.compute_eq_some {op : TermOperator}
    (h : op.compute numbers.arithmetic x y = some value) :
    numbers.isFinite value ∧ (op ≠ .times → numbers.isZero y = false) := by
  cases op with
  | times => exact ⟨Numbers.checked_eq_some h, fun hne => absurd rfl hne⟩
  | divide =>
    obtain ⟨hfinite, hzero⟩ := Numbers.divided_eq_some h
    exact ⟨hfinite, fun _ => hzero⟩
  | mod =>
    obtain ⟨hfinite, hzero⟩ := Numbers.divided_eq_some h
    exact ⟨hfinite, fun _ => hzero⟩

theorem ExpressionOperator.compute_eq_some {op : ExpressionOperator}
    (h : op.compute numbers.arithmetic x y = some value) : numbers.isFinite value := by
  cases op <;> exact Numbers.checked_eq_some h

theorem Tree.All.head {p : (level : Level) → Tree α level → Prop} {tree : Tree α level}
    (h : tree.All p) : p level tree := by
  cases tree
  case integer => exact h
  all_goals exact h.1

theorem Tree.functionFinite_of_noError {tree : Tree α level}
    (hvalue : tree.evaluate numbers.arithmetic = some value) (h : tree.All (NoError numbers)) :
    tree.All (FunctionFinite numbers) := by
  induction tree generalizing value with
  | integer _ => exact trivial
  | parens e ih => exact ⟨trivial, ih hvalue h.2⟩
  | call f arg ih =>
    obtain ⟨x, hx, happly⟩ := Option.bind_eq_some_iff.mp hvalue
    refine ⟨fun x' hx' => ?_, ih hx h.2⟩
    cases hx.symm.trans hx'
    exact Numbers.applyFunction_eq_some happly ▸ h.1.1 value hvalue
  | primary p ih => exact ⟨trivial, ih hvalue h.2⟩
  | plus u ih => exact ⟨trivial, ih hvalue h.2⟩
  | minus u ih =>
    obtain ⟨x, hx, -⟩ := Option.map_eq_some_iff.mp hvalue
    exact ⟨trivial, ih hx h.2⟩
  | unary u ih => exact ⟨trivial, ih hvalue h.2⟩
  | pow base exponent ihBase ihExp =>
    obtain ⟨x, hx, hvalue⟩ := Option.bind_eq_some_iff.mp hvalue
    obtain ⟨y, hy, -⟩ := Option.bind_eq_some_iff.mp hvalue
    exact ⟨trivial, ihBase hx h.2.1, ihExp hy h.2.2⟩
  | factor f ih => exact ⟨trivial, ih hvalue h.2⟩
  | termOperation t op f iht ihf =>
    obtain ⟨x, hx, hvalue⟩ := Option.bind_eq_some_iff.mp hvalue
    obtain ⟨y, hy, -⟩ := Option.bind_eq_some_iff.mp hvalue
    exact ⟨trivial, iht hx h.2.1, ihf hy h.2.2⟩
  | term t ih => exact ⟨trivial, ih hvalue h.2⟩
  | expressionOperation e op t ihe iht =>
    obtain ⟨x, hx, hvalue⟩ := Option.bind_eq_some_iff.mp hvalue
    obtain ⟨y, hy, -⟩ := Option.bind_eq_some_iff.mp hvalue
    exact ⟨trivial, ihe hx h.2.1, iht hy h.2.2⟩

theorem Tree.noError_of_value {tree : Tree α level}
    (hvalue : tree.evaluate numbers.arithmetic = some value) (hfinite : numbers.isFinite value)
    (hdivides : tree.DividesByNonzero numbers) : tree.NoError numbers := by
  refine ⟨fun value' hvalue' => ?_, hdivides⟩
  cases hvalue.symm.trans hvalue'
  exact hfinite

theorem Tree.noError_of_functionFinite {tree : Tree α level}
    (hnumbers : ∀ value, .integer value ∈ tree.tokens → numbers.isFinite value)
    (hvalue : tree.evaluate numbers.arithmetic = some value)
    (h : tree.All (FunctionFinite numbers)) : tree.All (NoError numbers) := by
  induction tree generalizing value with
  | integer v =>
    cases hvalue
    exact noError_of_value rfl (hnumbers v (List.mem_singleton_self _)) trivial
  | parens e ih =>
    have he := ih (fun v hv => hnumbers v (by simp [tokens, hv])) hvalue h.2
    exact ⟨noError_of_value hvalue (he.head.1 value hvalue) trivial, he⟩
  | call f arg ih =>
    obtain ⟨x, hx, happly⟩ := Option.bind_eq_some_iff.mp hvalue
    have harg := ih (fun v hv => hnumbers v (by simp [tokens, hv])) hx h.2
    refine ⟨noError_of_value hvalue ?_ trivial, harg⟩
    exact Numbers.applyFunction_eq_some happly ▸ h.1 x hx
  | primary p ih =>
    have hp := ih hnumbers hvalue h.2
    exact ⟨noError_of_value hvalue (hp.head.1 value hvalue) trivial, hp⟩
  | plus u ih =>
    have hu := ih (fun v hv => hnumbers v (by simp [tokens, hv])) hvalue h.2
    exact ⟨noError_of_value hvalue (hu.head.1 value hvalue) trivial, hu⟩
  | minus u ih =>
    obtain ⟨x, hx, hneg⟩ := Option.map_eq_some_iff.mp hvalue
    have hu := ih (fun v hv => hnumbers v (by simp [tokens, hv])) hx h.2
    refine ⟨noError_of_value hvalue ?_ trivial, hu⟩
    rw [← hneg]
    exact Numbers.isFinite_negate.trans (hu.head.1 x hx)
  | unary u ih =>
    have hu := ih hnumbers hvalue h.2
    exact ⟨noError_of_value hvalue (hu.head.1 value hvalue) trivial, hu⟩
  | pow base exponent ihBase ihExp =>
    obtain ⟨x, hx, hrest⟩ := Option.bind_eq_some_iff.mp hvalue
    obtain ⟨y, hy, hpow⟩ := Option.bind_eq_some_iff.mp hrest
    refine ⟨noError_of_value hvalue (Numbers.checked_eq_some hpow) trivial, ?_, ?_⟩
    · exact ihBase (fun v hv => hnumbers v (by simp [tokens, hv])) hx h.2.1
    · exact ihExp (fun v hv => hnumbers v (by simp [tokens, hv])) hy h.2.2
  | factor f ih =>
    have hf := ih hnumbers hvalue h.2
    exact ⟨noError_of_value hvalue (hf.head.1 value hvalue) trivial, hf⟩
  | termOperation t op f iht ihf =>
    obtain ⟨x, hx, hrest⟩ := Option.bind_eq_some_iff.mp hvalue
    obtain ⟨y, hy, hop⟩ := Option.bind_eq_some_iff.mp hrest
    obtain ⟨hfinite, hzero⟩ := TermOperator.compute_eq_some hop
    refine ⟨noError_of_value hvalue hfinite fun hne y' hy' => ?_, ?_, ?_⟩
    · cases hy.symm.trans hy'
      exact hzero hne
    · exact iht (fun v hv => hnumbers v (by simp [tokens, hv])) hx h.2.1
    · exact ihf (fun v hv => hnumbers v (by simp [tokens, hv])) hy h.2.2
  | term t ih =>
    have ht := ih hnumbers hvalue h.2
    exact ⟨noError_of_value hvalue (ht.head.1 value hvalue) trivial, ht⟩
  | expressionOperation e op t ihe iht =>
    obtain ⟨x, hx, hrest⟩ := Option.bind_eq_some_iff.mp hvalue
    obtain ⟨y, hy, hop⟩ := Option.bind_eq_some_iff.mp hrest
    refine ⟨noError_of_value hvalue (ExpressionOperator.compute_eq_some hop) trivial, ?_, ?_⟩
    · exact ihe (fun v hv => hnumbers v (by simp [tokens, hv])) hx h.2.1
    · exact iht (fun v hv => hnumbers v (by simp [tokens, hv])) hy h.2.2

/-! The tokens of a key. -/

theorem operatorMap_ne_integer (name : Bytes) : operatorMap name ≠ some (.integer value) := by
  unfold operatorMap
  split <;> exact fun h => by cases h

theorem readToken_integer {rest rest' : Bytes}
    (h : readToken numbers rest = some (.integer value, rest')) : numbers.isFinite value := by
  rw [readToken] at h
  split_ifs at h
  · obtain ⟨v, hv, h⟩ := Option.map_eq_some_iff.mp h
    cases h
    exact (Option.filter_eq_some_iff.mp hv).2
  · obtain ⟨token, htoken, h⟩ := Option.map_eq_some_iff.mp h
    cases h
    exact absurd htoken (operatorMap_ne_integer _)
  · obtain ⟨length, -, h⟩ := List.exists_of_findSome?_eq_some h
    split_ifs at h
    obtain ⟨token, htoken, h⟩ := Option.map_eq_some_iff.mp h
    cases h
    exact absurd htoken (operatorMap_ne_integer _)

theorem readTokens_integer {rounds : Nat} {rest : Bytes} {tokens : List (Token α)}
    (h : readTokens numbers rounds rest = some tokens) (hmem : .integer value ∈ tokens) :
    numbers.isFinite value := by
  induction rounds generalizing rest tokens with
  | zero =>
    rw [readTokens] at h
    split_ifs at h
    cases h
    cases hmem
  | succ rounds ih =>
    rw [readTokens] at h
    split_ifs at h
    · cases h
      cases hmem
    · simp only [Option.bind_eq_bind, Option.bind_eq_some_iff, Prod.exists] at h
      obtain ⟨token, rest', hread, tokens, hrest, h⟩ := h
      cases h
      rcases List.mem_cons.mp hmem with rfl | hmem
      · exact readToken_integer hread
      · exact ih hrest hmem

theorem expressionTokens_integer {normalize : Bytes → Bytes} {key : Bytes} {tokens : List (Token α)}
    (h : expressionTokens numbers normalize key = some tokens) (hmem : .integer value ∈ tokens) :
    numbers.isFinite value := by
  rw [expressionTokens] at h
  split_ifs at h
  obtain ⟨body, -, h⟩ := Option.bind_eq_some_iff.mp h
  rw [tokenize] at h
  obtain ⟨tokens', hread, h⟩ := Option.bind_eq_some_iff.mp h
  split_ifs at h
  cases h
  exact readTokens_integer hread hmem

end finite

theorem resultValue_eq_some {numbers : Numbers α} {normalize : Bytes → Bytes} {key : Bytes}
    {value : α} : resultValue numbers normalize key = some value ↔
      ∃ tree, Derives numbers normalize key tree ∧
        tree.evaluate numbers.arithmetic = some value := by
  rw [resultValue, Option.bind_eq_some_iff]
  constructor
  · rintro ⟨tokens, htokens, hcalculate⟩
    obtain ⟨tree, rfl, hvalue, hcalls⟩ :=
      (calculateTokensFrom_eq_some (Nat.le_refl _)).mp hcalculate
    exact ⟨tree, ⟨htokens, hcalls⟩, hvalue⟩
  · rintro ⟨tree, ⟨htokens, hcalls⟩, hvalue⟩
    exact ⟨_, htokens, (calculateTokensFrom_eq_some (Nat.le_refl _)).mpr ⟨tree, rfl, hvalue, hcalls⟩⟩

/-- A key fails on errors exactly if it has no function without a finite result in a calculation
that comes to its end. -/
theorem failsOnErrors_iff (numbers : Numbers α) (normalize : Bytes → Bytes) (key : Bytes) :
    FailsOnErrors numbers normalize key ↔
      ∀ tree value, Derives numbers normalize key tree →
        tree.evaluate numbers.arithmetic = some value → tree.All (Tree.FunctionFinite numbers) := by
  constructor
  · intro h tree value hderives hvalue
    have hresult := resultValue_eq_some.mpr ⟨tree, hderives, hvalue⟩
    obtain ⟨value', hvalue', -, -, hall⟩ :=
      h _ (Option.map_eq_some_iff.mpr ⟨value, hresult, rfl⟩)
    cases hresult.symm.trans hvalue'
    exact Tree.functionFinite_of_noError hvalue (hall tree hderives hvalue)
  · intro h string hstring
    obtain ⟨value, hresult, rfl⟩ := Option.map_eq_some_iff.mp hstring
    have hall : ∀ tree, Derives numbers normalize key tree →
        tree.evaluate numbers.arithmetic = some value → tree.All (Tree.NoError numbers) :=
      fun tree hderives hvalue => Tree.noError_of_functionFinite
        (fun _ hmem => expressionTokens_integer hderives.1 hmem) hvalue (h tree value hderives hvalue)
    obtain ⟨tree, hderives, hvalue⟩ := resultValue_eq_some.mp hresult
    exact ⟨value, hresult, rfl, (hall tree hderives hvalue).head.1 value hvalue, hall⟩

/-- Numbers that are whole, with what the functions have at zero. -/
inductive Double where
  | finite (n : Int)
  | infinity
  | minusInfinity
  | nan
  deriving DecidableEq

namespace Double

def negate : Double → Double
  | finite n => finite (-n)
  | infinity => minusInfinity
  | minusInfinity => infinity
  | nan => nan

def ofZero (atZero : Double) : Double → Double
  | finite 0 => atZero
  | _ => nan

def lift (f : Int → Int → Int) : Double → Double → Double
  | finite m, finite n => finite (f m n)
  | _, _ => nan

def numbers : Numbers Double where
  isNan x := decide (x = nan)
  isInfinite x := decide (x = infinity) || decide (x = minusInfinity)
  isNegative x := match x with
    | finite n => decide (n < 0)
    | minusInfinity => true
    | _ => false
  isZero x := decide (x = finite 0)
  negate := negate
  isNan_negate x := by cases x <;> rfl
  isInfinite_negate x := by cases x <;> rfl
  log10 := ofZero minusInfinity
  log := ofZero minusInfinity
  exp := ofZero (finite 1)
  sqrt := ofZero (finite 0)
  sin := ofZero (finite 0)
  cos := ofZero (finite 1)
  tan := ofZero (finite 0)
  abs := ofZero (finite 0)
  pow _ _ := nan
  times := lift (· * ·)
  divide _ _ := nan
  fmod := lift Int.tmod
  plus := lift (· + ·)
  minus := lift (· - ·)
  simpleAtod str := some (finite (str.foldl (fun n c => 10 * n + (c.toNat - 0x30 : Nat)) 0))
  format x := match x with
    | minusInfinity => [0x2d, 0x69, 0x6e, 0x66]
    | _ => []

end Double

/-- The key `log(0)=` gives `-inf`. -/
theorem not_failsOnErrors_log_zero :
    calculateString Double.numbers id [0x6c, 0x6f, 0x67, 0x28, 0x30, 0x29, 0x3d] =
        some [0x2d, 0x69, 0x6e, 0x66] ∧
      ¬ FailsOnErrors Double.numbers id [0x6c, 0x6f, 0x67, 0x28, 0x30, 0x29, 0x3d] := by
  have hvalue : resultValue Double.numbers id [0x6c, 0x6f, 0x67, 0x28, 0x30, 0x29, 0x3d] =
      some .minusInfinity := by
    decide +kernel
  refine ⟨by rw [calculateString, hvalue]; rfl, fun h => ?_⟩
  obtain ⟨value, hvalue', -, hfinite, -⟩ := h _ (by rw [calculateString, hvalue]; rfl)
  cases hvalue.symm.trans hvalue'
  exact absurd hfinite (by decide)

end Mozkey.Rewriter.Calculator
