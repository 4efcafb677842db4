import Formula.Native.Inst

/-!
# Peephole optimisation

Two pairs of instructions are dropped: a push of `rax` followed by a pop into it, and a move of a
register to `rax` followed by the move back, unless the instruction after the pair reads `rax`.
`Native.pass` drops the pairs that it meets from left to right, and `Native.optimize` repeats the
pass until nothing is dropped.
-/

namespace Formula.Native

/-- Whether two adjacent instructions can be dropped in front of `rest`. -/
def redundant (first second : Inst) (rest : List Inst) : Bool :=
  match first, second with
  | .pushRax, .popRax => true
  | .xmmToRax a, .raxToXmm b => a = b && !(rest.head?.map Inst.readsRax).getD false
  | _, _ => false

/-- Drops redundant pairs from left to right. -/
def pass : List Inst → List Inst
  | [] => []
  | [i] => [i]
  | i :: j :: rest => if redundant i j rest then pass rest else i :: pass (j :: rest)

/-- Drops redundant pairs until none is left. -/
def optimize (code : List Inst) : List Inst :=
  if (pass code).length < code.length then optimize (pass code) else code
termination_by code.length

end Formula.Native
