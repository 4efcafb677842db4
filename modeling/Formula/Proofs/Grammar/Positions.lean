import Formula.Expr.Parser

/-!
# Positions in an expression

What may come next in an expression depends on little of what has been read: whether an operand is
due, and which parentheses are open. A `Position` is that much. `Position.step` says which tokens
may come at a position and where they lead, so a token that may not come makes every input that
goes on with it impossible (`Position.isSome_run_of_prefix`).
-/

namespace Formula.Grammar

/-- An open parenthesis: around an expression, or around the arguments of a call. -/
inductive Bracket where
  | group
  | call
deriving DecidableEq

/-- What is due. -/
inductive Mode where
  /-- An operand. -/
  | operand
  /-- An argument, or no arguments. -/
  | argument
  /-- What may follow a name. -/
  | name
  /-- What may follow any other operand. -/
  | read
  /-- Nothing, the input has ended. -/
  | finished
deriving DecidableEq

/-- A place in an input. -/
structure Position where
  mode : Mode
  /-- The innermost one first. -/
  brackets : List Bracket
deriving DecidableEq

namespace Position

/-- The place where an input begins. -/
def start : Position :=
  ⟨.operand, []⟩

/-- Behind a token that begins an operand. -/
def begin? (brackets : List Bracket) : TokenKind → Option Position
  | .float | .int => some ⟨.read, brackets⟩
  | .identifier => some ⟨.name, brackets⟩
  | .minus | .plus => some ⟨.operand, brackets⟩
  | .openParen => some ⟨.operand, .group :: brackets⟩
  | _ => none

/-- Behind a token that follows an operand. -/
def follow? : List Bracket → TokenKind → Option Position
  | brackets, .plus => some ⟨.operand, brackets⟩
  | brackets, .minus => some ⟨.operand, brackets⟩
  | brackets, .star => some ⟨.operand, brackets⟩
  | brackets, .slash => some ⟨.operand, brackets⟩
  | _ :: brackets, .closeParen => some ⟨.read, brackets⟩
  | .call :: brackets, .comma => some ⟨.operand, .call :: brackets⟩
  | [], .semicolon => some ⟨.operand, []⟩
  | [], .endOfInput => some ⟨.finished, []⟩
  | _, _ => none

/-- Behind a token, if it may come. -/
def step : Position → TokenKind → Option Position
  | ⟨.operand, brackets⟩, kind => begin? brackets kind
  | ⟨.argument, brackets⟩, kind =>
    if kind = .closeParen then follow? brackets kind else begin? brackets kind
  | ⟨.name, brackets⟩, kind =>
    if kind = .openParen then some ⟨.argument, .call :: brackets⟩ else follow? brackets kind
  | ⟨.read, brackets⟩, kind => follow? brackets kind
  | ⟨.finished, _⟩, _ => none

/-- Behind several tokens, if they may come. -/
def run (p : Position) (tokens : List Token) : Option Position :=
  (tokens.map Token.kind).foldlM step p

section Run

variable {p q : Position} {tokens : List Token}

theorem run_append (first second : List Token) :
    p.run (first ++ second) = p.run first >>= fun q => q.run second := by
  rw [run, List.map_append, List.foldlM_append]
  rfl

theorem run_cons (token : Token) (tokens : List Token) :
    p.run (token :: tokens) = p.step token.kind >>= fun q => q.run tokens := by
  rw [run, List.map_cons, List.foldlM_cons]
  rfl

theorem run_cons_of_eq {token : Token} (h : p.step token.kind = some q) (tokens : List Token) :
    p.run (token :: tokens) = q.run tokens := by
  rw [run_cons, h]
  rfl

theorem run_singleton (p : Position) (token : Token) : p.run [token] = p.step token.kind := by
  rw [run_cons]
  cases p.step token.kind <;> rfl

theorem run_concat (h : p.run tokens = some q) (token : Token) :
    p.run (tokens ++ [token]) = q.step token.kind := by
  rw [run_append, h]
  exact run_singleton q token

theorem run_append_of_eq (h : p.run tokens = some q) (more : List Token) :
    p.run (tokens ++ more) = q.run more := by
  rw [run_append, h]
  rfl

/-- If an input can be read, so can all that begins with tokens of the same kinds. -/
theorem isSome_run_of_prefix {first all : List Token}
    (hPrefix : first.map Token.kind <+: all.map Token.kind) (hAll : (p.run all).isSome) :
    (p.run first).isSome := by
  obtain ⟨more, hMore⟩ := hPrefix
  rw [run, ← hMore, List.foldlM_append] at hAll
  rw [run]
  cases hFirst : (first.map Token.kind).foldlM step p with
  | none =>
    rw [hFirst] at hAll
    cases hAll
  | some q => rfl

end Run

/-! ## Single tokens -/

section Step

variable {brackets : List Bracket} {kind : TokenKind}

/-- Only tokens that can start an expression begin an operand. -/
theorem begin?_eq_none_iff : begin? brackets kind = none ↔ Parser.startsFactor kind = false := by
  cases kind <;> simp [begin?, Parser.startsFactor]

/-- Where an argument may come, an operand may. -/
theorem step_argument (h : Parser.startsFactor kind = true) :
    step ⟨.argument, brackets⟩ kind = step ⟨.operand, brackets⟩ kind := by
  refine if_neg ?_
  rintro rfl
  cases h

theorem follow?_of_additive? {op : BinaryOp} (h : Parser.additive? kind = some op) :
    follow? brackets kind = some ⟨.operand, brackets⟩ := by
  unfold Parser.additive? at h
  split at h
  · rw [follow?]
  · rw [follow?]
  · cases h

theorem follow?_of_multiplicative? {op : BinaryOp} (h : Parser.multiplicative? kind = some op) :
    follow? brackets kind = some ⟨.operand, brackets⟩ := by
  unfold Parser.multiplicative? at h
  split at h
  · rw [follow?]
  · rw [follow?]
  · cases h

end Step

end Position

end Formula.Grammar
