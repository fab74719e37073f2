import Mozkey.Rewriter.Calculator

/-! The parser of the calculator and the grammar: what it parses derives, and what derives with few
enough calls it parses. -/

namespace Mozkey.Rewriter.Calculator

variable {α : Type} {arith : Arithmetic α} {fuel : Nat} {ctx ctx' : ParserContext α} {value value' : α}
  {level : Level}

attribute [local simp] Tree.calls Tree.evaluate Tree.tokens

namespace ParserContext

theorem call_eq_some : ctx.call = some ctx' ↔
    ctx.operationCount + 1 ≤ kMaxOperations ∧
      ctx' = { ctx with operationCount := ctx.operationCount + 1 } := by
  rw [call]
  split
  · rename_i hlt
    exact iff_of_false (Option.some_ne_none _).symm fun h => Nat.not_lt_of_le h.1 hlt
  · rename_i hle
    rw [Option.some_inj, eq_comm, and_iff_right (Nat.le_of_not_lt hle)]

theorem close_eq_some : ctx.close = some ctx' ↔
    ctx.tokens = .rp :: ctx'.tokens ∧ ctx'.operationCount = ctx.operationCount := by
  obtain ⟨tokens, count⟩ := ctx
  obtain ⟨tokens', count'⟩ := ctx'
  rw [close]
  split
  · rename_i rest heq
    dsimp only at heq ⊢
    rw [heq, Option.some_inj, mk.injEq, List.cons.injEq, and_iff_right rfl]
    exact and_congr_right' eq_comm
  · rename_i hno
    exact iff_of_false (Option.some_ne_none _).symm fun h => hno _ h.1

end ParserContext

/-- The tokens in front of those of `ctx'` derive, with this value and as many calls as are counted. -/
def Parses (arith : Arithmetic α) (level : Level) (ctx : ParserContext α) (value : α)
    (ctx' : ParserContext α) : Prop :=
  ∃ tree : Tree α level, ctx.tokens = tree.tokens ++ ctx'.tokens ∧ tree.evaluate arith = some value ∧
    ctx'.operationCount = ctx.operationCount + tree.calls

/-- The operands that a loop has joined to `left`. -/
def Extends (arith : Arithmetic α) (level : Level) (value : α) (ctx : ParserContext α) (value' : α)
    (ctx' : ParserContext α) : Prop :=
  ∀ left : Tree α level, left.evaluate arith = some value → ∃ tree : Tree α level,
    left.tokens ++ ctx.tokens = tree.tokens ++ ctx'.tokens ∧ tree.evaluate arith = some value' ∧
      left.calls + ctx'.operationCount = ctx.operationCount + tree.calls

/-- What the functions parse with this fuel derives, and the calls are within their bound. -/
structure Sound (arith : Arithmetic α) (fuel : Nat) : Prop where
  primary : ∀ {ctx value ctx'}, parsePrimary arith fuel ctx = some (value, ctx') →
    Parses arith .primary ctx value ctx' ∧ ctx'.operationCount ≤ kMaxOperations
  unary : ∀ {ctx value ctx'}, parseUnary arith fuel ctx = some (value, ctx') →
    Parses arith .unary ctx value ctx' ∧ ctx'.operationCount ≤ kMaxOperations
  factor : ∀ {ctx value ctx'}, parseFactor arith fuel ctx = some (value, ctx') →
    Parses arith .factor ctx value ctx' ∧ ctx'.operationCount ≤ kMaxOperations
  term : ∀ {ctx value ctx'}, parseTerm arith fuel ctx = some (value, ctx') →
    Parses arith .term ctx value ctx' ∧ ctx'.operationCount ≤ kMaxOperations
  termLoop : ∀ {value ctx value' ctx'}, parseTermLoop arith fuel value ctx = some (value', ctx') →
    Extends arith .term value ctx value' ctx' ∧
      (ctx.operationCount ≤ kMaxOperations → ctx'.operationCount ≤ kMaxOperations)
  expression : ∀ {ctx value ctx'}, parseExpression arith fuel ctx = some (value, ctx') →
    Parses arith .expression ctx value ctx' ∧ ctx'.operationCount ≤ kMaxOperations
  expressionLoop : ∀ {value ctx value' ctx'},
    parseExpressionLoop arith fuel value ctx = some (value', ctx') →
    Extends arith .expression value ctx value' ctx' ∧
      (ctx.operationCount ≤ kMaxOperations → ctx'.operationCount ≤ kMaxOperations)

section soundness

theorem Sound.closed (ih : Sound arith fuel) {ctx₁ : ParserContext α}
    (hexpr : parseExpression arith fuel ctx = some (value, ctx₁)) (hclose : ctx₁.close = some ctx') :
    ∃ e : Tree α .expression, ctx.tokens = e.tokens ++ [.rp] ++ ctx'.tokens ∧
      e.evaluate arith = some value ∧ ctx'.operationCount = ctx.operationCount + e.calls ∧
      ctx'.operationCount ≤ kMaxOperations := by
  obtain ⟨⟨e, htokens, hvalue, hcount⟩, hmax⟩ := ih.expression hexpr
  obtain ⟨hrp, hsame⟩ := ParserContext.close_eq_some.mp hclose
  refine ⟨e, ?_, hvalue, hsame.trans hcount, hsame.trans_le hmax⟩
  rw [htokens, hrp, List.append_assoc, List.singleton_append]

theorem Sound.primary_succ (ih : Sound arith fuel)
    (h : parsePrimary arith (fuel + 1) ctx = some (value, ctx')) :
    Parses arith .primary ctx value ctx' ∧ ctx'.operationCount ≤ kMaxOperations := by
  rw [parsePrimary] at h
  simp only [Option.bind_eq_bind, Option.bind_eq_some_iff] at h
  obtain ⟨ctx₁, hcall, h⟩ := h
  obtain ⟨hle, rfl⟩ := ParserContext.call_eq_some.mp hcall
  split at h
  · rename_i heq
    cases h
    exact ⟨⟨.integer value, heq, rfl, rfl⟩, hle⟩
  · rename_i heq
    simp only [Option.bind_eq_some_iff, Prod.exists] at h
    obtain ⟨v, ctx₂, hexpr, ctx₃, hclose, h⟩ := h
    cases h
    obtain ⟨e, htokens, hvalue, hcount, hmax⟩ := ih.closed hexpr hclose
    dsimp only at heq htokens hcount
    refine ⟨⟨.parens e, ?_, hvalue, ?_⟩, hmax⟩
    · rw [heq, htokens]
      rfl
    · rw [hcount, Tree.calls]
      omega
  · rename_i f _ heq
    simp only [Option.bind_eq_some_iff, Prod.exists] at h
    obtain ⟨arg, ctx₂, hexpr, ctx₃, hclose, v, happly, h⟩ := h
    cases h
    obtain ⟨e, htokens, hvalue, hcount, hmax⟩ := ih.closed hexpr hclose
    dsimp only at heq htokens hcount
    refine ⟨⟨.call f e, ?_, ?_, ?_⟩, hmax⟩
    · rw [heq, htokens]
      rfl
    · rw [Tree.evaluate, hvalue]
      exact happly
    · rw [hcount, Tree.calls]
      omega
  · cases h

theorem Sound.unary_succ (ih : Sound arith fuel)
    (h : parseUnary arith (fuel + 1) ctx = some (value, ctx')) :
    Parses arith .unary ctx value ctx' ∧ ctx'.operationCount ≤ kMaxOperations := by
  rw [parseUnary] at h
  simp only [Option.bind_eq_bind, Option.bind_eq_some_iff] at h
  obtain ⟨ctx₁, hcall, h⟩ := h
  obtain ⟨hle, rfl⟩ := ParserContext.call_eq_some.mp hcall
  split at h
  · cases h
  · rename_i heq
    obtain ⟨⟨u, htokens, hvalue, hcount⟩, hmax⟩ := ih.unary h
    dsimp only at heq htokens hcount
    refine ⟨⟨.plus u, ?_, hvalue, ?_⟩, hmax⟩
    · rw [heq, htokens]
      rfl
    · rw [hcount, Tree.calls]
      omega
  · rename_i heq
    simp only [Option.bind_eq_some_iff, Prod.exists] at h
    obtain ⟨rhs, ctx₂, hunary, h⟩ := h
    cases h
    obtain ⟨⟨u, htokens, hvalue, hcount⟩, hmax⟩ := ih.unary hunary
    dsimp only at heq htokens hcount
    refine ⟨⟨.minus u, ?_, ?_, ?_⟩, hmax⟩
    · rw [heq, htokens]
      rfl
    · rw [Tree.evaluate, hvalue]
      rfl
    · rw [hcount, Tree.calls]
      omega
  · obtain ⟨⟨p, htokens, hvalue, hcount⟩, hmax⟩ := ih.primary h
    dsimp only at htokens hcount
    refine ⟨⟨.primary p, htokens, hvalue, ?_⟩, hmax⟩
    rw [hcount, Tree.calls]
    omega

theorem Sound.factor_succ (ih : Sound arith fuel)
    (h : parseFactor arith (fuel + 1) ctx = some (value, ctx')) :
    Parses arith .factor ctx value ctx' ∧ ctx'.operationCount ≤ kMaxOperations := by
  rw [parseFactor] at h
  simp only [Option.bind_eq_bind, Option.bind_eq_some_iff, Prod.exists] at h
  obtain ⟨ctx₁, hcall, v, ctx₂, hunary, h⟩ := h
  obtain ⟨hle, rfl⟩ := ParserContext.call_eq_some.mp hcall
  obtain ⟨⟨u, htokens, hvalue, hcount⟩, hmax⟩ := ih.unary hunary
  dsimp only at htokens hcount
  split at h
  · rename_i heq
    simp only [Option.bind_eq_some_iff, Prod.exists] at h
    obtain ⟨rhs, ctx₃, hfactor, w, hpow, h⟩ := h
    cases h
    obtain ⟨⟨f, htokens', hvalue', hcount'⟩, hmax'⟩ := ih.factor hfactor
    dsimp only at htokens' hcount'
    refine ⟨⟨.pow u f, ?_, ?_, ?_⟩, hmax'⟩
    · rw [htokens, heq, htokens', Tree.tokens, List.append_assoc]
      rfl
    · rw [Tree.evaluate, hvalue, hvalue']
      exact hpow
    · rw [hcount', hcount, Tree.calls]
      omega
  · cases h
    refine ⟨⟨.unary u, htokens, hvalue, ?_⟩, hmax⟩
    rw [hcount, Tree.calls]
    omega

theorem termOperator_eq_some {tokens rest : List (Token α)} {op : α → α → Option α} :
    termOperator arith tokens = some (op, rest) ↔
      ∃ o : TermOperator, op = o.compute arith ∧ tokens = o.token :: rest := by
  constructor
  · intro h
    unfold termOperator at h
    split at h <;> cases h
    exacts [⟨.times, rfl, rfl⟩, ⟨.divide, rfl, rfl⟩, ⟨.mod, rfl, rfl⟩]
  · rintro ⟨o, rfl, rfl⟩
    cases o <;> rfl

theorem expressionOperator_eq_some {tokens rest : List (Token α)} {op : α → α → Option α} :
    expressionOperator arith tokens = some (op, rest) ↔
      ∃ o : ExpressionOperator, op = o.compute arith ∧ tokens = o.token :: rest := by
  constructor
  · intro h
    unfold expressionOperator at h
    split at h <;> cases h
    exacts [⟨.plus, rfl, rfl⟩, ⟨.minus, rfl, rfl⟩]
  · rintro ⟨o, rfl, rfl⟩
    cases o <;> rfl

theorem Extends.refl (arith : Arithmetic α) (level : Level) (value : α) (ctx : ParserContext α) :
    Extends arith level value ctx value ctx :=
  fun left hleft => ⟨left, rfl, hleft, Nat.add_comm _ _⟩

theorem Sound.termLoop_succ (ih : Sound arith fuel)
    (h : parseTermLoop arith (fuel + 1) value ctx = some (value', ctx')) :
    Extends arith .term value ctx value' ctx' ∧
      (ctx.operationCount ≤ kMaxOperations → ctx'.operationCount ≤ kMaxOperations) := by
  rw [parseTermLoop] at h
  split at h
  · cases h
    exact ⟨.refl arith .term value ctx, id⟩
  · rename_i op tokens heq
    obtain ⟨o, rfl, htokens⟩ := termOperator_eq_some.mp heq
    simp only [Option.bind_eq_bind, Option.bind_eq_some_iff, Prod.exists] at h
    obtain ⟨rhs, ctx₁, hfactor, v, hop, hloop⟩ := h
    obtain ⟨⟨f, htokens₁, hvalue₁, hcount₁⟩, hmax₁⟩ := ih.factor hfactor
    obtain ⟨hextends, hmax⟩ := ih.termLoop hloop
    refine ⟨fun left hleft => ?_, fun _ => hmax hmax₁⟩
    obtain ⟨tree, htree, hvalue, hcount⟩ := hextends (.termOperation left o f) (by
      rw [Tree.evaluate, hleft, hvalue₁]
      exact hop)
    dsimp only at htokens₁ hcount₁
    refine ⟨tree, ?_, hvalue, ?_⟩
    · rw [← htree, htokens, htokens₁, Tree.tokens, List.append_assoc]
      rfl
    · rw [Tree.calls] at hcount
      omega

theorem Sound.expressionLoop_succ (ih : Sound arith fuel)
    (h : parseExpressionLoop arith (fuel + 1) value ctx = some (value', ctx')) :
    Extends arith .expression value ctx value' ctx' ∧
      (ctx.operationCount ≤ kMaxOperations → ctx'.operationCount ≤ kMaxOperations) := by
  rw [parseExpressionLoop] at h
  split at h
  · cases h
    exact ⟨.refl arith .expression value ctx, id⟩
  · rename_i op tokens heq
    obtain ⟨o, rfl, htokens⟩ := expressionOperator_eq_some.mp heq
    simp only [Option.bind_eq_bind, Option.bind_eq_some_iff, Prod.exists] at h
    obtain ⟨rhs, ctx₁, hterm, v, hop, hloop⟩ := h
    obtain ⟨⟨t, htokens₁, hvalue₁, hcount₁⟩, hmax₁⟩ := ih.term hterm
    obtain ⟨hextends, hmax⟩ := ih.expressionLoop hloop
    refine ⟨fun left hleft => ?_, fun _ => hmax hmax₁⟩
    obtain ⟨tree, htree, hvalue, hcount⟩ := hextends (.expressionOperation left o t) (by
      rw [Tree.evaluate, hleft, hvalue₁]
      exact hop)
    dsimp only at htokens₁ hcount₁
    refine ⟨tree, ?_, hvalue, ?_⟩
    · rw [← htree, htokens, htokens₁, Tree.tokens, List.append_assoc]
      rfl
    · rw [Tree.calls] at hcount
      omega

theorem Sound.term_succ (ih : Sound arith fuel)
    (h : parseTerm arith (fuel + 1) ctx = some (value, ctx')) :
    Parses arith .term ctx value ctx' ∧ ctx'.operationCount ≤ kMaxOperations := by
  rw [parseTerm] at h
  simp only [Option.bind_eq_bind, Option.bind_eq_some_iff, Prod.exists] at h
  obtain ⟨ctx₁, hcall, v, ctx₂, hfactor, hloop⟩ := h
  obtain ⟨hle, rfl⟩ := ParserContext.call_eq_some.mp hcall
  obtain ⟨⟨f, htokens, hvalue, hcount⟩, hmax⟩ := ih.factor hfactor
  obtain ⟨hextends, hloopMax⟩ := ih.termLoop hloop
  obtain ⟨tree, htree, hvalue', hcount'⟩ := hextends (.factor f) hvalue
  dsimp only at htokens hcount
  rw [Tree.calls] at hcount'
  exact ⟨⟨tree, htokens.trans htree, hvalue', by omega⟩, hloopMax hmax⟩

theorem Sound.expression_succ (ih : Sound arith fuel)
    (h : parseExpression arith (fuel + 1) ctx = some (value, ctx')) :
    Parses arith .expression ctx value ctx' ∧ ctx'.operationCount ≤ kMaxOperations := by
  rw [parseExpression] at h
  simp only [Option.bind_eq_bind, Option.bind_eq_some_iff, Prod.exists] at h
  obtain ⟨ctx₁, hcall, v, ctx₂, hterm, hloop⟩ := h
  obtain ⟨hle, rfl⟩ := ParserContext.call_eq_some.mp hcall
  obtain ⟨⟨t, htokens, hvalue, hcount⟩, hmax⟩ := ih.term hterm
  obtain ⟨hextends, hloopMax⟩ := ih.expressionLoop hloop
  obtain ⟨tree, htree, hvalue', hcount'⟩ := hextends (.term t) hvalue
  dsimp only at htokens hcount
  rw [Tree.calls] at hcount'
  exact ⟨⟨tree, htokens.trans htree, hvalue', by omega⟩, hloopMax hmax⟩

theorem sound_zero (arith : Arithmetic α) : Sound arith 0 where
  primary h := by cases h
  unary h := by cases h
  factor h := by cases h
  term h := by cases h
  termLoop h := by
    rw [parseTermLoop] at h
    split at h
    · cases h
    · cases h
      exact ⟨.refl arith .term _ _, id⟩
  expression h := by cases h
  expressionLoop h := by
    rw [parseExpressionLoop] at h
    split at h
    · cases h
    · cases h
      exact ⟨.refl arith .expression _ _, id⟩

theorem sound (arith : Arithmetic α) (fuel : Nat) : Sound arith fuel := by
  induction fuel with
  | zero => exact sound_zero arith
  | succ fuel ih =>
    exact
      { primary := ih.primary_succ
        unary := ih.unary_succ
        factor := ih.factor_succ
        term := ih.term_succ
        termLoop := ih.termLoop_succ
        expression := ih.expression_succ
        expressionLoop := ih.expressionLoop_succ }

end soundness

/-! Completeness. -/

def FactorEnds (rest : List (Token α)) : Prop :=
  ∀ tokens, rest ≠ .pow :: tokens

def TermEnds (arith : Arithmetic α) (rest : List (Token α)) : Prop :=
  FactorEnds rest ∧ termOperator arith rest = none

/-- The function parses the tokens of the tree in front of `rest`, if its calls are few enough. -/
def Accepts (arith : Arithmetic α) (parse : Nat → ParserContext α → Option (α × ParserContext α))
    (tree : Tree α level) (rest : List (Token α)) : Prop :=
  ∀ ⦃fuel count value⦄, tree.evaluate arith = some value → kMaxOperations ≤ fuel + count →
    count + tree.calls ≤ kMaxOperations →
    parse fuel ⟨tree.tokens ++ rest, count⟩ = some (value, ⟨rest, count + tree.calls⟩)

/-- The function comes to its loop behind the tokens of the tree, with fuel left. -/
def Reaches (arith : Arithmetic α) (parse : Nat → ParserContext α → Option (α × ParserContext α))
    (loop : Nat → α → ParserContext α → Option (α × ParserContext α)) (tree : Tree α level)
    (rest : List (Token α)) : Prop :=
  ∀ ⦃fuel count value⦄, tree.evaluate arith = some value → kMaxOperations ≤ fuel + count →
    count + tree.calls ≤ kMaxOperations →
    ∃ k, kMaxOperations + 1 ≤ k + (count + tree.calls) ∧
      parse fuel ⟨tree.tokens ++ rest, count⟩ = loop k value ⟨rest, count + tree.calls⟩

def Complete (arith : Arithmetic α) : {level : Level} → Tree α level → Prop
  | .primary, p => ∀ rest, Accepts arith (parsePrimary arith) p rest
  | .unary, u => ∀ rest, Accepts arith (parseUnary arith) u rest
  | .factor, f => ∀ rest, FactorEnds rest → Accepts arith (parseFactor arith) f rest
  | .term, t => ∀ rest, FactorEnds rest →
    Reaches arith (parseTerm arith) (parseTermLoop arith) t rest
  | .expression, e => ∀ rest, TermEnds arith rest →
    Reaches arith (parseExpression arith) (parseExpressionLoop arith) e rest

section completeness

theorem Tree.calls_pos (tree : Tree α level) : 0 < tree.calls := by
  induction tree <;> rw [calls] <;> omega

theorem ParserContext.call_mk {tokens : List (Token α)} {count : Nat} (h : count + 1 ≤ kMaxOperations) :
    call ⟨tokens, count⟩ = some ⟨tokens, count + 1⟩ :=
  call_eq_some.mpr ⟨h, rfl⟩

theorem factorEnds_termOperator (op : TermOperator) (rest : List (Token α)) :
    FactorEnds (op.token :: rest) := by
  intro tokens h
  cases op <;> cases h

theorem termEnds_expressionOperator (arith : Arithmetic α) (op : ExpressionOperator)
    (rest : List (Token α)) : TermEnds arith (op.token :: rest) := by
  refine ⟨fun tokens h => ?_, ?_⟩
  · cases op <;> cases h
  · cases op <;> rfl

theorem termEnds_rp (arith : Arithmetic α) (rest : List (Token α)) : TermEnds arith (.rp :: rest) :=
  ⟨fun _ h => (by cases h), rfl⟩

theorem termEnds_nil (arith : Arithmetic α) : TermEnds arith [] :=
  ⟨fun _ h => (by cases h), rfl⟩

theorem parseTermLoop_of_ends {k : Nat} (h : termOperator arith ctx.tokens = none) :
    parseTermLoop arith k value ctx = some (value, ctx) := by
  cases k <;> simp [parseTermLoop, h]

theorem parseExpressionLoop_of_ends {k : Nat} (h : expressionOperator arith ctx.tokens = none) :
    parseExpressionLoop arith k value ctx = some (value, ctx) := by
  cases k <;> simp [parseExpressionLoop, h]

theorem Complete.accepts_term {t : Tree α .term} (h : Complete arith t) {rest : List (Token α)}
    (hends : TermEnds arith rest) : Accepts arith (parseTerm arith) t rest := by
  intro fuel count value hvalue hfuel hcalls
  obtain ⟨k, -, hparse⟩ := h rest hends.1 hvalue hfuel hcalls
  rw [hparse, parseTermLoop_of_ends hends.2]

theorem Complete.accepts_expression {e : Tree α .expression} (h : Complete arith e)
    {rest : List (Token α)} (hends : TermEnds arith rest)
    (hexpr : expressionOperator arith rest = none) :
    Accepts arith (parseExpression arith) e rest := by
  intro fuel count value hvalue hfuel hcalls
  obtain ⟨k, -, hparse⟩ := h rest hends hvalue hfuel hcalls
  rw [hparse, parseExpressionLoop_of_ends hexpr]

theorem complete_integer (arith : Arithmetic α) (value : α) : Complete arith (.integer value) := by
  intro rest fuel count v hvalue hfuel hcalls
  cases hvalue
  rw [Tree.calls] at hcalls
  obtain ⟨fuel, rfl⟩ : ∃ k, fuel = k + 1 := ⟨fuel - 1, by omega⟩
  rw [parsePrimary, ParserContext.call_mk hcalls]
  rfl

theorem complete_parens {e : Tree α .expression} (h : Complete arith e) :
    Complete arith (.parens e) := by
  intro rest fuel count v hvalue hfuel hcalls
  rw [Tree.calls] at hcalls ⊢
  obtain ⟨fuel, rfl⟩ : ∃ k, fuel = k + 1 := ⟨fuel - 1, by omega⟩
  have he := h.accepts_expression (termEnds_rp arith rest) rfl hvalue
    (show kMaxOperations ≤ fuel + (count + 1) by omega) (by omega)
  rw [parsePrimary, ParserContext.call_mk (by omega)]
  simp only [Tree.tokens, List.cons_append, List.append_assoc, Option.bind_eq_bind,
    Option.bind_some, List.nil_append, he, ParserContext.close]
  rw [show count + 1 + e.calls = count + (e.calls + 1) by omega]

theorem complete_call {f : Function} {arg : Tree α .expression} (h : Complete arith arg) :
    Complete arith (.call f arg) := by
  intro rest fuel count v hvalue hfuel hcalls
  rw [Tree.calls] at hcalls ⊢
  obtain ⟨fuel, rfl⟩ : ∃ k, fuel = k + 1 := ⟨fuel - 1, by omega⟩
  obtain ⟨x, hx, happly⟩ := Option.bind_eq_some_iff.mp hvalue
  have he := h.accepts_expression (termEnds_rp arith rest) rfl hx
    (show kMaxOperations ≤ fuel + (count + 1) by omega) (by omega)
  rw [parsePrimary, ParserContext.call_mk (by omega)]
  simp only [Tree.tokens, List.cons_append, List.append_assoc, Option.bind_eq_bind,
    Option.bind_some, List.nil_append, he, ParserContext.close, happly]
  rw [show count + 1 + arg.calls = count + (arg.calls + 1) by omega]

theorem complete_primary {p : Tree α .primary} (h : Complete arith p) :
    Complete arith (.primary p) := by
  intro rest fuel count v hvalue hfuel hcalls
  rw [Tree.calls] at hcalls ⊢
  obtain ⟨fuel, rfl⟩ : ∃ k, fuel = k + 1 := ⟨fuel - 1, by omega⟩
  have hp := h rest hvalue (show kMaxOperations ≤ fuel + (count + 1) by omega) (by omega)
  rw [parseUnary, ParserContext.call_mk (by omega),
    show count + (p.calls + 1) = count + 1 + p.calls by omega]
  cases p <;> exact hp

theorem complete_plus {u : Tree α .unary} (h : Complete arith u) : Complete arith (.plus u) := by
  intro rest fuel count v hvalue hfuel hcalls
  rw [Tree.calls] at hcalls ⊢
  obtain ⟨fuel, rfl⟩ : ∃ k, fuel = k + 1 := ⟨fuel - 1, by omega⟩
  have hu := h rest hvalue (show kMaxOperations ≤ fuel + (count + 1) by omega) (by omega)
  rw [parseUnary, ParserContext.call_mk (by omega),
    show count + (u.calls + 1) = count + 1 + u.calls by omega]
  exact hu

theorem complete_minus {u : Tree α .unary} (h : Complete arith u) : Complete arith (.minus u) := by
  intro rest fuel count v hvalue hfuel hcalls
  rw [Tree.calls] at hcalls ⊢
  obtain ⟨fuel, rfl⟩ : ∃ k, fuel = k + 1 := ⟨fuel - 1, by omega⟩
  obtain ⟨x, hx, rfl⟩ := Option.map_eq_some_iff.mp hvalue
  have hu := h rest hx (show kMaxOperations ≤ fuel + (count + 1) by omega) (by omega)
  rw [parseUnary, ParserContext.call_mk (by omega)]
  simp only [Tree.tokens, List.cons_append, Option.bind_eq_bind, Option.bind_some, hu]
  rw [show count + 1 + u.calls = count + (u.calls + 1) by omega]

theorem complete_unary {u : Tree α .unary} (h : Complete arith u) : Complete arith (.unary u) := by
  intro rest hends fuel count v hvalue hfuel hcalls
  rw [Tree.calls] at hcalls ⊢
  obtain ⟨fuel, rfl⟩ : ∃ k, fuel = k + 1 := ⟨fuel - 1, by omega⟩
  have hu := h rest hvalue (show kMaxOperations ≤ fuel + (count + 1) by omega) (by omega)
  rw [parseFactor, ParserContext.call_mk (by omega)]
  simp only [Tree.tokens, Option.bind_eq_bind, Option.bind_some, hu]
  split
  · exact absurd rfl (hends _)
  · rw [show count + 1 + u.calls = count + (u.calls + 1) by omega]

theorem complete_pow {base : Tree α .unary} {exponent : Tree α .factor} (hbase : Complete arith base)
    (hexp : Complete arith exponent) : Complete arith (.pow base exponent) := by
  intro rest hends fuel count v hvalue hfuel hcalls
  rw [Tree.calls] at hcalls ⊢
  obtain ⟨fuel, rfl⟩ : ∃ k, fuel = k + 1 := ⟨fuel - 1, by omega⟩
  obtain ⟨x, hx, hvalue⟩ := Option.bind_eq_some_iff.mp hvalue
  obtain ⟨y, hy, hpow⟩ := Option.bind_eq_some_iff.mp hvalue
  have hu := hbase (.pow :: (exponent.tokens ++ rest)) hx
    (show kMaxOperations ≤ fuel + (count + 1) by omega) (by omega)
  have hf := hexp rest hends hy
    (show kMaxOperations ≤ fuel + (count + 1 + base.calls) by omega) (by omega)
  rw [parseFactor, ParserContext.call_mk (by omega)]
  simp only [Tree.tokens, List.append_assoc, List.cons_append, Option.bind_eq_bind,
    Option.bind_some, hu, hf, hpow]
  rw [show count + 1 + base.calls + exponent.calls = count + (base.calls + exponent.calls + 1) by
    omega]

theorem complete_factor {f : Tree α .factor} (h : Complete arith f) : Complete arith (.factor f) := by
  intro rest hends fuel count v hvalue hfuel hcalls
  have hpos := f.calls_pos
  rw [Tree.calls] at hcalls ⊢
  obtain ⟨fuel, rfl⟩ : ∃ k, fuel = k + 1 := ⟨fuel - 1, by omega⟩
  have hf := h rest hends hvalue (show kMaxOperations ≤ fuel + (count + 1) by omega) (by omega)
  refine ⟨fuel, by omega, ?_⟩
  rw [parseTerm, ParserContext.call_mk (by omega)]
  simp only [Tree.tokens, Option.bind_eq_bind, Option.bind_some, hf]
  rw [show count + 1 + f.calls = count + (f.calls + 1) by omega]

theorem complete_termOperation {t : Tree α .term} {op : TermOperator} {f : Tree α .factor}
    (ht : Complete arith t) (hf : Complete arith f) : Complete arith (.termOperation t op f) := by
  intro rest hends fuel count v hvalue hfuel hcalls
  have hpos := f.calls_pos
  rw [Tree.calls] at hcalls ⊢
  obtain ⟨x, hx, hvalue⟩ := Option.bind_eq_some_iff.mp hvalue
  obtain ⟨y, hy, hop⟩ := Option.bind_eq_some_iff.mp hvalue
  obtain ⟨k, hk, hparse⟩ := ht (op.token :: (f.tokens ++ rest)) (factorEnds_termOperator op _) hx
    hfuel (by omega)
  obtain ⟨k, rfl⟩ : ∃ j, k = j + 1 := ⟨k - 1, by omega⟩
  have hfactor := hf rest hends hy
    (show kMaxOperations ≤ k + (count + t.calls) by omega) (by omega)
  refine ⟨k, by omega, ?_⟩
  rw [Tree.tokens, List.append_assoc, List.cons_append, hparse, parseTermLoop,
    termOperator_eq_some.mpr ⟨op, rfl, rfl⟩]
  simp only [Option.bind_eq_bind, hfactor, Option.bind_some, hop]
  rw [Nat.add_assoc]

theorem complete_term {t : Tree α .term} (h : Complete arith t) : Complete arith (.term t) := by
  intro rest hends fuel count v hvalue hfuel hcalls
  have hpos := t.calls_pos
  rw [Tree.calls] at hcalls ⊢
  obtain ⟨fuel, rfl⟩ : ∃ k, fuel = k + 1 := ⟨fuel - 1, by omega⟩
  have ht := h.accepts_term hends hvalue
    (show kMaxOperations ≤ fuel + (count + 1) by omega) (by omega)
  refine ⟨fuel, by omega, ?_⟩
  rw [parseExpression, ParserContext.call_mk (by omega)]
  simp only [Tree.tokens, Option.bind_eq_bind, Option.bind_some, ht]
  rw [show count + 1 + t.calls = count + (t.calls + 1) by omega]

theorem complete_expressionOperation {e : Tree α .expression} {op : ExpressionOperator}
    {t : Tree α .term} (he : Complete arith e) (ht : Complete arith t) :
    Complete arith (.expressionOperation e op t) := by
  intro rest hends fuel count v hvalue hfuel hcalls
  have hpos := t.calls_pos
  rw [Tree.calls] at hcalls ⊢
  obtain ⟨x, hx, hvalue⟩ := Option.bind_eq_some_iff.mp hvalue
  obtain ⟨y, hy, hop⟩ := Option.bind_eq_some_iff.mp hvalue
  obtain ⟨k, hk, hparse⟩ := he (op.token :: (t.tokens ++ rest))
    (termEnds_expressionOperator arith op _) hx hfuel (by omega)
  obtain ⟨k, rfl⟩ : ∃ j, k = j + 1 := ⟨k - 1, by omega⟩
  have hterm := ht.accepts_term hends hy
    (show kMaxOperations ≤ k + (count + e.calls) by omega) (by omega)
  refine ⟨k, by omega, ?_⟩
  rw [Tree.tokens, List.append_assoc, List.cons_append, hparse, parseExpressionLoop,
    expressionOperator_eq_some.mpr ⟨op, rfl, rfl⟩]
  simp only [Option.bind_eq_bind, hterm, Option.bind_some, hop]
  rw [Nat.add_assoc]

theorem complete (arith : Arithmetic α) (tree : Tree α level) : Complete arith tree := by
  induction tree with
  | integer value => exact complete_integer arith value
  | parens e ih => exact complete_parens ih
  | call f arg ih => exact complete_call ih
  | primary p ih => exact complete_primary ih
  | plus u ih => exact complete_plus ih
  | minus u ih => exact complete_minus ih
  | unary u ih => exact complete_unary ih
  | pow base exponent ihBase ihExp => exact complete_pow ihBase ihExp
  | factor f ih => exact complete_factor ih
  | termOperation t op f iht ihf => exact complete_termOperation iht ihf
  | term t ih => exact complete_term ih
  | expressionOperation e op t ihe iht => exact complete_expressionOperation ihe iht

end completeness

theorem calculateTokensFrom_eq_some {tokens : List (Token α)} (hfuel : kMaxOperations ≤ fuel) :
    calculateTokensFrom arith fuel tokens = some value ↔
      ∃ tree : Tree α .expression, tree.tokens = tokens ∧ tree.evaluate arith = some value ∧
        tree.calls ≤ kMaxOperations := by
  simp only [calculateTokensFrom, Option.bind_eq_bind, Option.bind_eq_some_iff, Prod.exists]
  constructor
  · rintro ⟨v, ctx, hparse, h⟩
    split at h
    · rename_i hnil
      cases h
      obtain ⟨⟨tree, htokens, hvalue, hcount⟩, hmax⟩ := (sound arith fuel).expression hparse
      rw [hnil, List.append_nil] at htokens
      rw [Nat.zero_add] at hcount
      exact ⟨tree, htokens.symm, hvalue, hcount ▸ hmax⟩
    · cases h
  · rintro ⟨tree, rfl, hvalue, hcalls⟩
    have hparse := (complete arith tree).accepts_expression (termEnds_nil arith) rfl hvalue
      (show kMaxOperations ≤ fuel + 0 from hfuel) (by omega)
    rw [List.append_nil] at hparse
    exact ⟨value, _, hparse, if_pos rfl⟩

/-- The calculator gives the value of a derivation of the whole, and no fuel gives another. -/
theorem calculateTokens_iff (arith : Arithmetic α) (tokens : List (Token α)) :
    (∀ value, calculateTokens arith tokens = some value ↔
      ∃ tree : Tree α .expression, tree.tokens = tokens ∧ tree.evaluate arith = some value ∧
        tree.calls ≤ kMaxOperations) ∧
      ∀ fuel, calculateTokensFrom arith (kMaxOperations + fuel) tokens =
        calculateTokens arith tokens := by
  refine ⟨fun value => calculateTokensFrom_eq_some (Nat.le_refl _), fun fuel => ?_⟩
  apply Option.ext
  intro value
  rw [calculateTokensFrom_eq_some (Nat.le_add_right _ _)]
  exact (calculateTokensFrom_eq_some (Nat.le_refl _)).symm

end Mozkey.Rewriter.Calculator
