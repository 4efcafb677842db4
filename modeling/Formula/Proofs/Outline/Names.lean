import Formula.Expr.Outline
import Formula.Proofs.Number.Plain
import Formula.Proofs.Spans
import Formula.Proofs.Splitting
import Formula.Proofs.Text.Lines

/-!
# Names of nodes

The names of the nodes in preorder tell trees apart up to their spans. The name of a call shows how
many arguments follow, so the names are the tree in prefix notation
(`Expr.withoutSpans_of_shapes`). In the tree of a text the name of a variable or function is a word,
so it ends where the number of arguments begins, and a number that was read from a text is told by
its plain form (`Expr.shape_of_label`).
-/

namespace Formula.Expr

/-! ## Trees without their spans -/

mutual

/-- The tree with the same span at every node. -/
def withoutSpans : Expr → Expr
  | number _ value => number ⟨0, 0⟩ value
  | var _ name => var ⟨0, 0⟩ name
  | call _ name args => call ⟨0, 0⟩ name (withoutSpansAll args)
  | unary _ op operand => unary ⟨0, 0⟩ op operand.withoutSpans
  | binary _ op left right => binary ⟨0, 0⟩ op left.withoutSpans right.withoutSpans
  | sequence _ first second => sequence ⟨0, 0⟩ first.withoutSpans second.withoutSpans

/-- The same of several expressions. -/
def withoutSpansAll : List Expr → List Expr
  | [] => []
  | e :: es => e.withoutSpans :: withoutSpansAll es

end

theorem withoutSpansAll_eq_map (es : List Expr) : withoutSpansAll es = es.map withoutSpans := by
  induction es with
  | nil => rfl
  | cons e es ih => rw [withoutSpansAll, ih, List.map_cons]

/-- A node without its span and its operands. -/
inductive Shape where
  | number (value : Double)
  | var (name : String)
  | call (name : String) (arity : Nat)
  | unary (op : UnaryOp)
  | binary (op : BinaryOp)
  | sequence

/-- The node itself, without its operands. -/
def shape : Expr → Shape
  | number _ value => .number value
  | var _ name => .var name
  | call _ name args => .call name args.length
  | unary _ op _ => .unary op
  | binary _ op _ _ => .binary op
  | sequence _ _ _ => .sequence

namespace Shape

/-- How many operands a node has. -/
def arity : Shape → Nat
  | number _ => 0
  | var _ => 0
  | call _ arity => arity
  | unary _ => 1
  | binary _ => 2
  | sequence => 2

end Shape

theorem shape_withoutSpans (e : Expr) : e.withoutSpans.shape = e.shape := by
  cases e <;> simp [withoutSpans, shape, withoutSpansAll_eq_map]

theorem children_withoutSpans (e : Expr) :
    e.withoutSpans.children = e.children.map withoutSpans := by
  cases e <;> simp [withoutSpans, children, withoutSpansAll_eq_map]

theorem arity_shape (e : Expr) : e.shape.arity = e.children.length := by
  cases e <;> rfl

theorem withoutSpans_congr {e e' : Expr} (hShape : e.shape = e'.shape)
    (hBelow : e.children.map withoutSpans = e'.children.map withoutSpans) :
    e.withoutSpans = e'.withoutSpans := by
  cases e <;> cases e' <;> simp_all [shape, children, withoutSpans, withoutSpansAll_eq_map]

section Names

variable {rest rest' : List Shape}

/-- The nodes of as many trees tell them apart, given that those of each do. -/
theorem map_withoutSpans_of_shapes {es es' : List Expr}
    (hEach : ∀ e ∈ es, ∀ (e' : Expr) (rest rest' : List Shape),
      e.preorder.map shape ++ rest = e'.preorder.map shape ++ rest' →
        e.withoutSpans = e'.withoutSpans ∧ rest = rest')
    (hLength : es.length = es'.length)
    (h : (es.flatMap preorder).map shape ++ rest = (es'.flatMap preorder).map shape ++ rest') :
    es.map withoutSpans = es'.map withoutSpans ∧ rest = rest' := by
  induction es generalizing es' with
  | nil =>
    obtain rfl := List.length_eq_zero_iff.mp hLength.symm
    exact ⟨rfl, h⟩
  | cons e es ih =>
    obtain ⟨e', es', rfl⟩ := List.exists_cons_of_length_eq_add_one hLength.symm
    obtain ⟨hFirst, hOthers⟩ := List.forall_mem_cons.mp hEach
    simp only [List.flatMap_cons, List.map_append, List.append_assoc] at h
    obtain ⟨hSame, hMore⟩ := hFirst _ _ _ h
    obtain ⟨hSames, hRest⟩ := ih hOthers (Nat.succ.inj hLength) hMore
    rw [List.map_cons, List.map_cons, hSame, hSames]
    exact ⟨rfl, hRest⟩

/-- The nodes of a tree in preorder tell where it ends, whatever other nodes follow. -/
theorem withoutSpans_of_append (e e' : Expr)
    (h : e.preorder.map shape ++ rest = e'.preorder.map shape ++ rest') :
    e.withoutSpans = e'.withoutSpans ∧ rest = rest' := by
  induction e using children_induction generalizing e' rest rest' with
  | node e ih =>
    rw [preorder_eq, preorder_eq e', List.map_cons, List.map_cons, List.cons_append,
      List.cons_append, List.cons.injEq] at h
    obtain ⟨hShape, hBelow⟩ := h
    have hLength : e.children.length = e'.children.length := by
      rw [← arity_shape, hShape, arity_shape]
    obtain ⟨hSame, hRest⟩ := map_withoutSpans_of_shapes
      (fun child hChild e' rest rest' => ih child hChild e') hLength hBelow
    exact ⟨withoutSpans_congr hShape hSame, hRest⟩

/-- Trees are the same up to their spans if their nodes are, in preorder. -/
theorem withoutSpans_of_shapes {e e' : Expr} (h : e.preorder.map shape = e'.preorder.map shape) :
    e.withoutSpans = e'.withoutSpans :=
  (withoutSpans_of_append e e' (congrArg (· ++ []) h)).1

end Names

/-! ## Names -/

namespace Shape

/-- What stands first in the name of a node. -/
def keyword : Shape → String
  | number _ => "Float"
  | var _ => "Variable"
  | call _ _ => "Call"
  | unary .neg => "Neg"
  | unary .plus => "Plus"
  | binary .add => "Add"
  | binary .sub => "Sub"
  | binary .mul => "Mul"
  | binary .div => "Div"
  | sequence => "Combine"

/-- What stands behind it. -/
def detail : Shape → String
  | number value => " " ++ plain value.toFloat
  | var name => " " ++ name
  | call name arity => " " ++ name ++ "/" ++ toString arity
  | _ => ""

/-- Whether a node can be that of a text. -/
def Legible : Shape → Prop
  | number value => ∃ x, value = .ofFloat x
  | var name => Token.Lexeme .identifier name.toList
  | call name _ => Token.Lexeme .identifier name.toList
  | _ => True

variable {s t : Shape}

theorem keyword_ne_nil (s : Shape) : s.keyword.toList ≠ [] := by
  rcases s with _ | _ | _ | (_ | _) | (_ | _ | _ | _) | _ <;> simp [keyword]

theorem isAlpha_of_mem_keyword (s : Shape) : ∀ c ∈ s.keyword.toList, c.isAlpha = true := by
  rcases s with _ | _ | _ | (_ | _) | (_ | _ | _ | _) | _ <;> simp [keyword]

theorem head?_detail (s : Shape) : ∀ c ∈ s.detail.toList.head?, c.isAlpha = false := by
  cases s <;> simp [detail]

/-- The name and the number of parameters of a function, of which the name is a word. -/
theorem call_inj {name name' : List Char} {arity arity' : Nat}
    (hName : Token.Lexeme .identifier name) (hName' : Token.Lexeme .identifier name')
    (h : name ++ '/' :: Nat.toDigits 10 arity = name' ++ '/' :: Nat.toDigits 10 arity') :
    name = name' ∧ arity = arity' := by
  have hSlash {name : List Char} (hName : Token.Lexeme .identifier name) : '/' ∉ name := by
    obtain ⟨c, rest, rfl, hFirst, hRest⟩ := hName
    have hWord : ∀ d ∈ c :: rest, Token.isWord d = true :=
      List.forall_mem_cons.mpr ⟨Token.isWord_of_isWordStart hFirst, hRest⟩
    exact fun hMem => nomatch hWord _ hMem
  obtain ⟨hSame, hMore⟩ := Token.front_cons_inj (hSlash hName) (hSlash hName') h
  exact ⟨hSame, Decimal.toDigits_inj hMore⟩

/-- The keyword tells nodes apart up to what stands behind it. -/
theorem cases_of_keyword (h : s.keyword = t.keyword) :
    s = t ∨ (∃ value value', s = number value ∧ t = number value') ∨
      (∃ name name', s = var name ∧ t = var name') ∨
      ∃ name arity name' arity', s = call name arity ∧ t = call name' arity' := by
  rcases s with _ | _ | _ | (_ | _) | (_ | _ | _ | _) | _ <;>
    rcases t with _ | _ | _ | (_ | _) | (_ | _ | _ | _) | _ <;> simp [keyword] at h ⊢

theorem eq_of_name (hs : s.Legible) (ht : t.Legible) (hKeyword : s.keyword = t.keyword)
    (hDetail : s.detail = t.detail) : s = t := by
  rcases cases_of_keyword hKeyword with rfl | ⟨value, value', rfl, rfl⟩ | ⟨name, name', rfl, rfl⟩ |
    ⟨name, arity, name', arity', rfl, rfl⟩
  · rfl
  · obtain ⟨x, rfl⟩ := hs
    obtain ⟨y, rfl⟩ := ht
    have hPlain : plain x = plain y := by simpa [detail] using hDetail
    rw [plain_injective hPlain]
  · have hName : name = name' := by simpa [detail] using hDetail
    rw [hName]
  · have hChars : name.toList ++ '/' :: Nat.toDigits 10 arity =
        name'.toList ++ '/' :: Nat.toDigits 10 arity' := by
      simpa [detail, String.toList_append, Nat.toList_repr] using congrArg String.toList hDetail
    obtain ⟨hName, rfl⟩ := call_inj hs ht hChars
    rw [String.toList_inj.mp hName]

end Shape

theorem label_eq (e : Expr) : e.label = e.shape.keyword ++ e.shape.detail := by
  cases e with
  | unary _ op _ => cases op <;> rfl
  | binary _ op _ _ => cases op <;> rfl
  | sequence _ _ _ => rfl
  | number _ _ => rfl
  | var _ _ => rfl
  | call _ _ _ => rfl

/-- The nodes of a text have names that tell them apart. -/
theorem legible_of_reads {node : Expr} {text : List Char} (h : node.Reads text) :
    node.shape.Legible := by
  cases node with
  | number _ value =>
    obtain ⟨-, x, -, hValue⟩ := h
    exact ⟨x, hValue⟩
  | var _ name => exact h.2
  | call _ name _ => exact h.1
  | _ => trivial

theorem exists_letter (e : Expr) :
    ∃ first rest, e.label.toList = first :: rest ∧ first.isAlpha = true := by
  obtain ⟨first, rest, hKeyword⟩ := List.exists_cons_of_ne_nil e.shape.keyword_ne_nil
  refine ⟨first, rest ++ e.shape.detail.toList, ?_, e.shape.isAlpha_of_mem_keyword first ?_⟩
  · rw [label_eq, String.toList_append, hKeyword, List.cons_append]
  · rw [hKeyword]
    exact List.mem_cons_self ..

theorem shape_of_label {e e' : Expr} (he : e.shape.Legible) (he' : e'.shape.Legible)
    (h : e.label = e'.label) : e.shape = e'.shape := by
  rw [label_eq, label_eq, ← String.toList_inj, String.toList_append, String.toList_append] at h
  obtain ⟨hKeyword, hDetail⟩ := Token.front_inj e.shape.isAlpha_of_mem_keyword
    e'.shape.isAlpha_of_mem_keyword e.shape.head?_detail e'.shape.head?_detail h
  exact Shape.eq_of_name he he' (String.toList_inj.mp hKeyword) (String.toList_inj.mp hDetail)

theorem oneLine_label {e : Expr} (h : e.shape.Legible) : Text.OneLine e.label := by
  have hWord {name : String} (hName : Token.Lexeme .identifier name.toList) : Text.OneLine name :=
    hName.not_mem (by decide)
  have hDetail : Text.OneLine e.shape.detail := by
    cases e with
    | number => exact Text.oneLine_append (by decide) (Text.oneLine_plain _)
    | var => exact Text.oneLine_append (by decide) (hWord h)
    | call =>
      exact Text.oneLine_append (Text.oneLine_append (Text.oneLine_append (by decide) (hWord h))
        (by decide)) (Text.oneLine_toString _)
    | _ => exact List.not_mem_nil
  rw [label_eq]
  exact Text.oneLine_append (fun hMem => nomatch e.shape.isAlpha_of_mem_keyword _ hMem) hDetail

end Formula.Expr
