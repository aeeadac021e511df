import CondRegions.Condition.Expr
import CondRegions.Condition.Token

/-!
# Parsing conditions

A condition is read in one pass over its tokens with a stack of open groups. At every token exactly
one question is open: is an operand due, or has one just been read? A token that does not answer it
is the syntax error, and its place is the place of the error. The operands and operators of a group
form a *chain*; when the group closes, the chain is folded into a tree, the tightest level first and
every level to the left.

* `Parser.step` — the effect of one token;
* `Parser.foldChain` — the tree of a chain;
* `Condition.parse` — the tree of a text, with the span of every node, or the error.

## Spans

A literal or identifier has the span of its token. A parenthesised expression has the span of what
is inside. All negations of one run of negation signs have one span, from the first sign to the end
of the operand, a closing parenthesis included. A binary node reaches from the start of its left
node to the end of its right node.
-/

namespace CondRegions

/-! ### Syntax errors -/

/-- What the grammar allows at the place of an error. -/
inductive Expected where
  /-- An operand, at the start, after an operator or after an opening parenthesis. -/
  | operand
  /-- An operand after a negation sign. -/
  | operandAfterBang
  /-- An operator or the end of the condition, after an operand. -/
  | operatorOrEnd
  /-- An operator or a closing parenthesis, after an operand inside parentheses. -/
  | operatorInGroup
deriving DecidableEq, Repr

/-- Why a condition is malformed. -/
inductive SyntaxReason where
  /-- There is nothing but white space. -/
  | empty
  /-- More parentheses are opened than closed. -/
  | missingClose
  /-- More parentheses are closed than opened. -/
  | unexpectedClose
  /-- The condition ends too early. -/
  | unexpectedEnd
  /-- Something else stands where `what` is expected. -/
  | expected (what : Expected)
deriving DecidableEq, Repr

/-- The wording of an expectation. -/
def Expected.message : Expected → String
  | .operand => "expected unary"
  | .operandAfterBang =>
    "expected not_op, number, string, boolean, null, undefined, or identifier"
  | .operatorOrEnd => "expected EOI, or_op, and_op, eq_op, or rel_op"
  | .operatorInGroup => "expected or_op, and_op, eq_op, or rel_op"

/-- The wording of a reason. -/
def SyntaxReason.message : SyntaxReason → String
  | .empty => "empty condition"
  | .missingClose => "missing closing parenthesis"
  | .unexpectedClose => "unexpected closing parenthesis"
  | .unexpectedEnd => "unexpected end of condition"
  | .expected what => what.message

/-- A malformed condition: the reason and its place in the text. -/
structure SyntaxError where
  reason : SyntaxReason
  span : Span
deriving DecidableEq, Repr

/-! ### Trees from chains -/

namespace Parser

/-- The node of an operator between two nodes. -/
def binary (op : Operator) (left right : Expr Span) : Expr Span :=
  .binary ⟨left.note.start, right.note.stop⟩ op left right

/-- Joins, from the left, the neighbours in a chain between which an operator of level `l`
stands. -/
def foldLevel (l : Level) (first : Expr Span) :
    List (Operator × Expr Span) → Expr Span × List (Operator × Expr Span)
  | [] => (first, [])
  | (op, e) :: rest =>
    if op.level = l then foldLevel l (binary op first e) rest
    else
      let (next, later) := foldLevel l e rest
      (first, (op, next) :: later)

/-- The levels of binding, the tightest first. -/
def levels : List Level := [.relational, .equality, .and, .or]

/-- **The tree of a chain.** Every level is folded to the left, the tightest level first. -/
def foldChain (first : Expr Span) (rest : List (Operator × Expr Span)) : Expr Span :=
  (levels.foldl (fun (e, es) l => foldLevel l e es) (first, rest)).1

/-- The operands read so far in a group, each with the operator behind it, the last one first. -/
abbrev Chain := List (Expr Span × Operator)

/-- A chain and its last operand, read from the left. -/
def Chain.unroll (last : Expr Span) (rest : List (Operator × Expr Span)) :
    Chain → Expr Span × List (Operator × Expr Span)
  | [] => (last, rest)
  | (e, op) :: chain => Chain.unroll e ((op, last) :: rest) chain

/-- The tree of a chain that ends in the operand `last`. -/
def Chain.close (chain : Chain) (last : Expr Span) : Expr Span :=
  let (first, rest) := Chain.unroll last [] chain
  foldChain first rest

/-- An operand behind negation signs, whose offsets are listed last first. The signs apply outwards,
and all their nodes end at `stop`. -/
def negate (bangs : List Nat) (stop : Nat) (operand : Expr Span) : Expr Span :=
  bangs.foldl (fun e _ => .not ⟨bangs.getLastD stop, stop⟩ e) operand

/-! ### One pass over the tokens -/

/-- A group in which an operand is due. -/
structure Group where
  /-- What has been read of the group. -/
  chain : Chain
  /-- The negation signs right before the operand that is due, the last one first. -/
  bangs : List Nat

/-- A group of which nothing has been read. -/
def Group.fresh : Group := ⟨[], []⟩

/-- Where the parser stands between two tokens. -/
inductive State where
  /-- An operand is due in `group`; the groups around it are listed from the inside. -/
  | due (outer : List Group) (group : Group)
  /-- An operand has just been read. -/
  | read (outer : List Group) (chain : Chain) (operand : Expr Span)

/-- The place where parsing cannot go on, and what would be allowed there. -/
structure Failure where
  position : Nat
  expected : Expected
deriving DecidableEq, Repr

/-- What is allowed next. -/
def State.expected : State → Expected
  | .due _ group => if group.bangs.isEmpty then .operand else .operandAfterBang
  | .read outer _ _ => if outer.isEmpty then .operatorOrEnd else .operatorInGroup

/-- **One token.** Where the parser stands after it, or the failure at it. Where an operand is due,
the first character of `!=` and `!==` is a negation sign, so it is what follows that cannot stand
there. -/
def step (state : State) (lexeme : Spanned Token) : Except Failure State :=
  let span := lexeme.span
  match state, lexeme.value with
  | .due outer group, .bang => .ok (.due outer { group with bangs := span.start :: group.bangs })
  | .due outer group, .openParen => .ok (.due (group :: outer) .fresh)
  | .due outer group, .literal v =>
    .ok (.read outer group.chain (negate group.bangs span.stop (.literal span v)))
  | .due outer group, .identifier name =>
    .ok (.read outer group.chain (negate group.bangs span.stop (.identifier span name)))
  | .due _ _, .operator .ne | .due _ _, .operator .strictNe =>
    .error ⟨span.start + 1, .operandAfterBang⟩
  | .read outer chain e, .operator op => .ok (.due outer ⟨(e, op) :: chain, []⟩)
  | .read (group :: outer) chain e, .closeParen =>
    .ok (.read outer group.chain (negate group.bangs span.stop (chain.close e)))
  | state, _ => .error ⟨span.start, state.expected⟩

/-- The tree of a condition whose tokens have all been read. -/
def finish (lexed : Lexed) (state : State) : Except Failure (Expr Span) :=
  match state, lexed.complete with
  | .read [] chain e, true => .ok (chain.close e)
  | state, _ => .error ⟨lexed.stop, state.expected⟩

/-- The tree of a sequence of tokens. -/
def run (lexed : Lexed) : Except Failure (Expr Span) :=
  (lexed.tokens.foldlM step (.due [] .fresh)).bind (finish lexed)

/-! ### Counting parentheses -/

/-- The parentheses opened and closed outside strings; `quote` is the quote of the string that the
text starts in, if it starts in one. -/
def countParens : Option Char → List Char → Nat × Nat
  | _, [] => (0, 0)
  | some q, '\\' :: _ :: cs => countParens (some q) cs
  | some q, c :: cs => countParens (if c = q then none else some q) cs
  | none, '(' :: cs => let (opened, closed) := countParens none cs; (opened + 1, closed)
  | none, ')' :: cs => let (opened, closed) := countParens none cs; (opened, closed + 1)
  | none, c :: cs => countParens (if c = '\'' || c = '"' then some c else none) cs

/-- The reason given for a failure: a difference in the number of parentheses comes first, then the
end of the text. -/
def reasonFor (cs : List Char) (failure : Failure) : SyntaxReason :=
  let (opened, closed) := countParens none cs
  if closed < opened then .missingClose
  else if opened < closed then .unexpectedClose
  else if Text.byteLength cs ≤ failure.position then .unexpectedEnd
  else .expected failure.expected

end Parser

namespace Condition

/-- **Parsing.** The tree of a condition, or the reason and the place of its first error. -/
def parse (text : String) : Except SyntaxError (Expr Span) :=
  let cs := text.toList
  if cs.all isWhiteSpace then .error ⟨.empty, ⟨0, Text.byteLength cs⟩⟩
  else match Parser.run (Lexed.ofText cs) with
    | .ok e => .ok e
    | .error failure =>
      .error ⟨Parser.reasonFor cs failure, ⟨failure.position, failure.position⟩⟩

/-- The value of a condition under a set of definitions. -/
def value (text : String) (defs : Definitions) : Except SyntaxError Value :=
  (parse text).map (·.eval defs)

end Condition

end CondRegions
