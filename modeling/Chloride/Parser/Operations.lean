import Chloride.Containers.Chain
import Chloride.Parser.Tokens
import Chloride.Translator.ParsedValue

/-!
# The trees of operations

`convert_to_operation` of `src/parser/operations/operations.c` makes a tree of a list of operands
and the list of the operators between them. It looks for the greatest token type among the
operators, slices both lists at its positions and makes a tree of each pair of slices.

Below, the operands with their operators are a chain. The slices are the chains that it is cut into
at the loosest operators (`convertSlices_cut`), so the tree is described by induction on the number
of operators.
-/

namespace Chloride

/-- The value of a constant of `ArTokenType`. -/
def TokenType.code (type : TokenType) : ℕ := 256 + type.ctorIdx

/-- The token of an operation. -/
def OperationToken.token : OperationToken → TokenType
  | .and => .and
  | .or => .or
  | .plus => .plus
  | .minus => .minus
  | .star => .star
  | .caret => .caret
  | .slash => .slash
  | .floordiv => .floordiv
  | .modulo => .modulo
  | .eq => .eq
  | .ne => .ne
  | .lt => .lt
  | .gt => .gt
  | .le => .le
  | .ge => .ge
  | .notIn => .notIn
  | .isIn => .in_

/-- The value of the token's type. Of two operators the one with the greater value is looser. -/
def OperationToken.code (operation : OperationToken) : ℕ := operation.token.code

/-- The operation of a token, if it is one of `SWITCH_OPERATIONS`. -/
def TokenType.asOperation : TokenType → Option OperationToken
  | .and => some .and
  | .or => some .or
  | .notIn => some .notIn
  | .in_ => some .isIn
  | .le => some .le
  | .ge => some .ge
  | .lt => some .lt
  | .gt => some .gt
  | .ne => some .ne
  | .eq => some .eq
  | .plus => some .plus
  | .minus => some .minus
  | .modulo => some .modulo
  | .star => some .star
  | .floordiv => some .floordiv
  | .slash => some .slash
  | .caret => some .caret
  | _ => none

theorem OperationToken.asOperation_token (operation : OperationToken) :
    operation.token.asOperation = some operation := by
  cases operation <;> rfl

theorem OperationToken.code_injective : Function.Injective OperationToken.code := by
  intro a b h
  have hindex : a.token.ctorIdx = b.token.ctorIdx := Nat.add_left_cancel h
  have htoken : a.token = b.token := by
    rw [← TokenType.ofNat_ctorIdx a.token, hindex, TokenType.ofNat_ctorIdx]
  rw [← Option.some.injEq, ← a.asOperation_token, htoken, b.asOperation_token]

theorem OperationToken.code_pos (operation : OperationToken) : 0 < operation.code :=
  Nat.lt_of_lt_of_le (by decide : 0 < 256) (Nat.le_add_right ..)

/-- What `convert_to_operation` reads of a `Token` in the list of operations. -/
structure OperationAt where
  type : OperationToken
  loc : SourceLocation
  deriving DecidableEq

/-! ## Building the tree -/

/-- `darray_slice`. -/
def darraySlice {α : Type} (arr : List α) (start stop : ℕ) : Except ParseStop (List α) :=
  if start > stop ∨ stop > arr.length then throw .exit
  else return (arr.drop start).take (stop - start)

/-- `operation` with its `operation_type`, and `positions`; while the type is zero they are not
there. -/
structure OperationScan where
  operation : Option OperationAt
  positions : List ℕ

/-- `operation_type`. -/
def OperationScan.type (scan : OperationScan) : ℕ :=
  (scan.operation.map fun o => o.type.code).getD 0

/-- A turn of the loop over the operations. -/
def OperationScan.next (scan : OperationScan) (current : OperationAt × ℕ) : OperationScan :=
  let scan := if scan.type < current.1.type.code then ⟨some current.1, []⟩ else scan
  if scan.type = current.1.type.code then { scan with positions := scan.positions ++ [current.2] }
  else scan

/-- The loop over the operations. -/
def scanOperations (operations : List OperationAt) : OperationScan :=
  operations.zipIdx.foldl OperationScan.next ⟨none, []⟩

/-- The loop over the positions from `to_operate_on_last_position` on, and the slices behind it. -/
def convertSlices (convert : List ParsedValue → List OperationAt → Except ParseStop ParsedValue)
    (toOperateOn : List ParsedValue) (operations : List OperationAt) (last : ℕ) :
    List ℕ → Except ParseStop (ParsedValue × List ParsedValue)
  | [] => do
    let toOperateOnSlice ← darraySlice toOperateOn last toOperateOn.length
    let operationsSlice ← darraySlice operations last operations.length
    return (← convert toOperateOnSlice operationsSlice, [])
  | position :: positions => do
    let toOperateOnSlice ← darraySlice toOperateOn last (position + 1)
    let operationsSlice ← darraySlice operations last position
    let result ← convert toOperateOnSlice operationsSlice
    let (first, rest) ← convertSlices convert toOperateOn operations (position + 1) positions
    return (result, first :: rest)

/-- `convert_to_operation`, for calls of a depth. Without operations `positions` is not
initialised. -/
def convertToOperation : ℕ → List ParsedValue → List OperationAt → Except ParseStop ParsedValue
  | _, [value], _ => return value
  | 0, _, _ => throw .unfinished
  | depth + 1, toOperateOn, operations =>
    match scanOperations operations with
    | ⟨none, _⟩ => throw .undefined
    | ⟨some operation, positions⟩ => do
      let (first, rest) ←
        convertSlices (convertToOperation depth) toOperateOn operations 0 positions
      return .operation operation.loc operation.type first rest

/-! ## The positions -/

/-- The positions of the operators of a type, counted from a number. -/
def positionsFrom (type : OperationToken) (k : ℕ) (operations : List OperationAt) : List ℕ :=
  (operations.zipIdx k).filterMap fun current => if current.1.type = type then some current.2 else none

theorem positionsFrom_cons {type : OperationToken} {o : OperationAt} (h : o.type = type) {k : ℕ}
    {operations : List OperationAt} :
    positionsFrom type k (o :: operations) = k :: positionsFrom type (k + 1) operations := by
  unfold positionsFrom
  rw [List.zipIdx_cons, List.filterMap_cons, if_pos h]

theorem positionsFrom_append (type : OperationToken) (k : ℕ) (operations operations' : List OperationAt) :
    positionsFrom type k (operations ++ operations') =
      positionsFrom type k operations ++ positionsFrom type (k + operations.length) operations' := by
  unfold positionsFrom
  rw [List.zipIdx_append, List.filterMap_append, Nat.add_comm]

theorem positionsFrom_of_forall {type : OperationToken} {operations : List OperationAt}
    (h : ∀ o ∈ operations, o.type ≠ type) (k : ℕ) : positionsFrom type k operations = [] := by
  unfold positionsFrom
  rw [List.filterMap_eq_nil_iff]
  intro current hcurrent
  exact if_neg (h _ (List.fst_mem_of_mem_zipIdx hcurrent))

section

variable {scan : OperationScan} {current : OperationAt} {i : ℕ}

theorem OperationScan.next_of_looser (h : scan.type < current.type.code) :
    scan.next (current, i) = ⟨some current, [i]⟩ := by
  unfold OperationScan.next
  rw [if_pos h]
  exact if_pos rfl

theorem OperationScan.next_of_same (h : scan.type = current.type.code) :
    scan.next (current, i) = ⟨scan.operation, scan.positions ++ [i]⟩ := by
  have hnot : ¬scan.type < current.type.code := by omega
  unfold OperationScan.next
  simp only [if_neg hnot, if_pos h]

theorem OperationScan.next_of_tighter (h : current.type.code < scan.type) :
    scan.next (current, i) = scan := by
  have hnot : ¬scan.type < current.type.code := by omega
  have hne : ¬scan.type = current.type.code := by omega
  unfold OperationScan.next
  simp only [if_neg hnot, if_neg hne]

end

/-- The operation that is found is one of the loosest, and the positions are all of theirs. -/
structure OperationScan.Loosest (scan : OperationScan) (operations : List OperationAt)
    (operation : OperationAt) : Prop where
  operation_eq : scan.operation = some operation
  mem : operation ∈ operations
  loosest : ∀ o ∈ operations, o.type.code ≤ operation.type.code
  positions_eq : scan.positions = positionsFrom operation.type 0 operations

theorem scanOperations_concat (operations : List OperationAt) (current : OperationAt) :
    scanOperations (operations ++ [current]) =
      (scanOperations operations).next (current, operations.length) := by
  unfold scanOperations
  rw [List.zipIdx_append, List.foldl_append, Nat.zero_add]
  rfl

theorem scanOperations_loosest {operations : List OperationAt} (h : operations ≠ []) :
    ∃ operation, (scanOperations operations).Loosest operations operation := by
  induction operations using List.reverseRecOn with
  | nil => exact absurd rfl h
  | append_singleton operations current ih =>
    rw [scanOperations_concat]
    by_cases hempty : operations = []
    · subst hempty
      have hlooser : (scanOperations []).type < current.type.code := current.type.code_pos
      rw [OperationScan.next_of_looser hlooser]
      exact ⟨current, rfl, List.mem_singleton_self current, by simp, by simp [positionsFrom]⟩
    obtain ⟨operation, hoperation, hmem, hloosest, hscan⟩ := ih hempty
    have htype : (scanOperations operations).type = operation.type.code := by
      unfold OperationScan.type
      rw [hoperation]
      rfl
    rcases Nat.lt_trichotomy operation.type.code current.type.code with hlt | heq | hgt
    · -- The operators before are all tighter.
      have hothers : ∀ o ∈ operations, o.type ≠ current.type := by
        intro o ho htypes
        have hle := hloosest o ho
        rw [htypes] at hle
        omega
      rw [OperationScan.next_of_looser (by omega)]
      refine ⟨current, rfl, by simp, ?_, ?_⟩
      · intro o ho
        rcases List.mem_append.mp ho with ho | ho
        · have := hloosest o ho
          omega
        · rw [List.mem_singleton.mp ho]
      · rw [positionsFrom_append, positionsFrom_of_forall hothers]
        simp [positionsFrom]
    · have hsame : operation.type = current.type := OperationToken.code_injective heq
      rw [OperationScan.next_of_same (by omega)]
      refine ⟨operation, hoperation, List.mem_append_left _ hmem, ?_, ?_⟩
      · intro o ho
        rcases List.mem_append.mp ho with ho | ho
        · exact hloosest o ho
        · rw [List.mem_singleton.mp ho, heq]
      · rw [positionsFrom_append, hscan, hsame]
        simp [positionsFrom]
    · have hother : ∀ o ∈ [current], o.type ≠ operation.type := by
        intro o ho htypes
        rw [List.mem_singleton.mp ho] at htypes
        rw [htypes] at hgt
        omega
      rw [OperationScan.next_of_tighter (by omega)]
      refine ⟨operation, hoperation, List.mem_append_left _ hmem, ?_, ?_⟩
      · intro o ho
        rcases List.mem_append.mp ho with ho | ho
        · exact hloosest o ho
        · rw [List.mem_singleton.mp ho]
          omega
      · rw [positionsFrom_append, positionsFrom_of_forall hother, List.append_nil, hscan]

theorem convertToOperation_succ {toOperateOn : List ParsedValue} {operations : List OperationAt}
    {operation : OperationAt} (h : toOperateOn.length ≠ 1)
    (hscan : (scanOperations operations).operation = some operation) {depth : ℕ} :
    convertToOperation (depth + 1) toOperateOn operations = (do
      let (first, rest) ← convertSlices (convertToOperation depth) toOperateOn operations 0
        (scanOperations operations).positions
      return .operation operation.loc operation.type first rest) := by
  have hshape : scanOperations operations =
      ⟨some operation, (scanOperations operations).positions⟩ := by rw [← hscan]
  have hstep : convertToOperation (depth + 1) toOperateOn operations =
      match scanOperations operations with
      | ⟨none, _⟩ => throw .undefined
      | ⟨some operation, positions⟩ => do
        let (first, rest) ←
          convertSlices (convertToOperation depth) toOperateOn operations 0 positions
        return .operation operation.loc operation.type first rest := by
    match toOperateOn with
    | [] => rfl
    | [_] => exact absurd rfl h
    | _ :: _ :: _ => rfl
  rw [hstep, hshape]

/-! ## The slices -/

section

variable {convert : List ParsedValue → List OperationAt → Except ParseStop ParsedValue}
  {toOperateOn : List ParsedValue} {operations : List OperationAt}

theorem darraySlice_drop {α : Type} {arr xs ys : List α} {start stop : ℕ}
    (h : arr.drop start = xs ++ ys) (hstart : start ≤ arr.length) (hstop : stop = start + xs.length) :
    darraySlice arr start stop = .ok xs := by
  have hlength : (arr.drop start).length = arr.length - start := List.length_drop
  rw [h, List.length_append] at hlength
  unfold darraySlice
  rw [if_neg (by omega), h, hstop, Nat.add_sub_cancel_left, List.take_left']
  · rfl
  · rfl

/-- The slices from a place on are the chains that the chain from there is cut into. -/
theorem convertSlices_cut {type : OperationToken} {f : Chain ParsedValue OperationAt → ParsedValue}
    {c : Chain ParsedValue OperationAt} {start : ℕ} (hitems : toOperateOn.drop start = c.items)
    (hseps : operations.drop start = c.seps) (hstart : start ≤ operations.length)
    (hlength : toOperateOn.length = operations.length + 1) {d : Chain ParsedValue OperationAt}
    {ds : List (Chain ParsedValue OperationAt)} (hcut : c.cut (fun o => o.type = type) = d :: ds)
    (hconvert : ∀ e ∈ c.cut (fun o => o.type = type), convert e.items e.seps = .ok (f e)) :
    convertSlices convert toOperateOn operations start (positionsFrom type start c.seps) =
      .ok (f d, ds.map f) := by
  induction c using Chain.cutInduction (fun o : OperationAt => o.type = type) generalizing start d ds with
  | whole c h =>
    rw [Chain.cut_of_forall h] at hcut hconvert
    rw [List.cons.injEq] at hcut
    obtain ⟨rfl, rfl⟩ := hcut
    have hnone : positionsFrom type start c.seps = [] :=
      positionsFrom_of_forall (fun o ho => of_decide_eq_false (h o ho)) start
    have hslice : darraySlice toOperateOn start toOperateOn.length = .ok c.items := by
      have hend : toOperateOn.drop start = c.items ++ [] := by rw [hitems, List.append_nil]
      refine darraySlice_drop hend (by omega) ?_
      rw [← hitems, List.length_drop]
      omega
    have hslice' : darraySlice operations start operations.length = .ok c.seps := by
      have hend : operations.drop start = c.seps ++ [] := by rw [hseps, List.append_nil]
      refine darraySlice_drop hend hstart ?_
      rw [← hseps, List.length_drop]
      omega
    rw [hnone, convertSlices, hslice, hslice']
    show (convert c.items c.seps >>= fun result => pure (result, [])) = _
    rw [hconvert c (List.mem_singleton_self c)]
    rfl
  | append e o c h ho ih =>
    rw [Chain.cut_append h ho] at hcut hconvert
    rw [List.cons.injEq] at hcut
    obtain ⟨rfl, rfl⟩ := hcut
    rw [Chain.items_append] at hitems
    rw [Chain.seps_append] at hseps ⊢
    have htype : o.type = type := of_decide_eq_true ho
    have hpositions : positionsFrom type start (e.seps ++ o :: c.seps) =
        (start + e.seps.length) :: positionsFrom type (start + e.seps.length + 1) c.seps := by
      rw [positionsFrom_append,
        positionsFrom_of_forall fun o' ho' => of_decide_eq_false (h o' ho')]
      exact positionsFrom_cons htype
    have hlengths : e.seps.length + 1 + c.seps.length = operations.length - start := by
      rw [← List.length_drop, hseps, List.length_append, List.length_cons]
      omega
    have hslice : darraySlice toOperateOn start (start + e.seps.length + 1) = .ok e.items := by
      refine darraySlice_drop hitems (by omega) ?_
      rw [Chain.length_items]
      omega
    have hslice' : darraySlice operations start (start + e.seps.length) = .ok e.seps :=
      darraySlice_drop hseps hstart rfl
    have hitems' : toOperateOn.drop (start + e.seps.length + 1) = c.items := by
      rw [Nat.add_assoc, ← List.drop_drop, hitems, ← Chain.length_items]
      exact List.drop_left' rfl
    have hseps' : operations.drop (start + e.seps.length + 1) = c.seps := by
      rw [Nat.add_assoc, ← List.drop_drop, hseps, ← List.drop_drop, List.drop_left' rfl]
      rfl
    obtain ⟨d', ds', hcut'⟩ := List.exists_cons_of_ne_nil (c.cut_ne_nil fun o => o.type = type)
    have hrest := ih hitems' hseps' (by omega) hcut'
      (fun e' he' => hconvert e' (List.mem_cons_of_mem _ he'))
    rw [hpositions, convertSlices, hslice, hslice', hcut', List.map_cons]
    show (convert e.items e.seps >>= fun result => convertSlices convert toOperateOn operations
      (start + e.seps.length + 1) (positionsFrom type (start + e.seps.length + 1) c.seps) >>=
        fun p => pure (result, p.1 :: p.2)) = _
    rw [hconvert e (List.mem_cons_self ..), hrest]
    rfl

end

/-! ## The tree -/

/-- A tree of operations over operands, whatever these are. -/
inductive OperationTree where
  | operand (value : ParsedValue)
  | operation (loc : SourceLocation) (operation : OperationToken) (first : OperationTree)
      (rest : List OperationTree)

namespace OperationTree

mutual

/-- The parsed value that a tree is. -/
def value : OperationTree → ParsedValue
  | .operand value => value
  | .operation loc op first rest => .operation loc op first.value (values rest)

def values : List OperationTree → List ParsedValue
  | [] => []
  | tree :: trees => tree.value :: values trees

end

mutual

/-- The operands and the operators in order. -/
def inorder : OperationTree → List (ParsedValue ⊕ OperationToken)
  | .operand value => [.inl value]
  | .operation _ op first rest => first.inorder ++ inorderRest op rest

def inorderRest (op : OperationToken) : List OperationTree → List (ParsedValue ⊕ OperationToken)
  | [] => []
  | tree :: trees => .inr op :: tree.inorder ++ inorderRest op trees

end

/-- The operator at the root, if there is one. -/
def root : OperationTree → Option OperationToken
  | .operand _ => none
  | .operation _ op _ _ => some op

/-- The operator of every child binds tighter than that of its parent. -/
inductive Tighter : OperationTree → Prop
  | operand (value : ParsedValue) : Tighter (.operand value)
  | operation {loc : SourceLocation} {operation : OperationToken} {first : OperationTree}
      {rest : List OperationTree}
      (children : ∀ child ∈ first :: rest, ∀ o ∈ child.root, o.code < operation.code)
      (below : ∀ child ∈ first :: rest, Tighter child) :
      Tighter (.operation loc operation first rest)

theorem values_eq_map (trees : List OperationTree) : values trees = trees.map value := by
  induction trees with
  | nil => rfl
  | cons tree trees ih => rw [values, ih, List.map_cons]

theorem inorderRest_eq_flatMap (op : OperationToken) (trees : List OperationTree) :
    inorderRest op trees = trees.flatMap fun tree => .inr op :: tree.inorder := by
  induction trees with
  | nil => rfl
  | cons tree trees ih => rw [inorderRest, ih, List.flatMap_cons]

end OperationTree

/-- A tree is right for a chain of operands: it has the operands and the operators in their order, at
its root is one of the loosest operators, and the operators below are tighter. -/
structure OperationTree.IsOf (tree : OperationTree) (c : Chain ParsedValue OperationAt) : Prop where
  inorder_eq : tree.inorder = c.flatten.map (Sum.map id OperationAt.type)
  root_mem : ∀ op ∈ tree.root, ∃ o ∈ c.seps, o.type = op
  root_loosest : ∀ o ∈ c.seps, ∃ op ∈ tree.root, o.type.code ≤ op.code
  tighter : tree.Tighter

/-- A tree groups a chain at its loosest operators: the children are trees of the chains that it is cut
into there. -/
inductive OperationTree.Groups : OperationTree → Chain ParsedValue OperationAt → Prop
  | operand (value : ParsedValue) : Groups (.operand value) ⟨value, []⟩
  | operation {o : OperationAt} {c d : Chain ParsedValue OperationAt}
      {ds : List (Chain ParsedValue OperationAt)} {tree : Chain ParsedValue OperationAt → OperationTree}
      (mem : o ∈ c.seps) (loosest : ∀ o' ∈ c.seps, o'.type.code ≤ o.type.code)
      (cut : c.cut (fun o' => o'.type = o.type) = d :: ds)
      (children : ∀ e ∈ d :: ds, Groups (tree e) e) :
      Groups (.operation o.loc o.type (tree d) (ds.map tree)) c

/-- A tree that groups a chain is right for it. -/
theorem OperationTree.Groups.isOf {tree : OperationTree} {c : Chain ParsedValue OperationAt}
    (h : tree.Groups c) : tree.IsOf c := by
  induction h with
  | operand value => exact ⟨rfl, nofun, nofun, .operand value⟩
  | @operation o c d ds tree hmem hloosest hcut _ ih =>
    have hchildren : ∀ child ∈ tree d :: ds.map tree, ∃ e ∈ d :: ds, child = tree e := by
      intro child hchild
      rw [← List.map_cons, List.mem_map] at hchild
      obtain ⟨e, he, rfl⟩ := hchild
      exact ⟨e, he, rfl⟩
    refine ⟨?_, ?_, ?_, .operation ?_ ?_⟩
    · have hrest : ∀ e ∈ ds, (tree e).inorder = e.flatten.map (Sum.map id OperationAt.type) :=
        fun e he => (ih e (List.mem_cons_of_mem _ he)).inorder_eq
      rw [inorder, inorderRest_eq_flatMap, (ih d List.mem_cons_self).inorder_eq,
        Chain.flatten_cut (fun o' _ ho' => of_decide_eq_true ho') hcut, List.flatMap_map]
      congr 1
      exact List.flatMap_congr fun e he => by rw [hrest e he]
    · rintro op ⟨⟩
      exact ⟨o, hmem, rfl⟩
    · exact fun o' ho' => ⟨o.type, rfl, hloosest o' ho'⟩
    · -- The loosest operators are all cut at.
      intro child hchild op hop
      obtain ⟨e, he, rfl⟩ := hchildren child hchild
      obtain ⟨o', ho', rfl⟩ := (ih e he).root_mem op hop
      obtain ⟨hother, hseps⟩ := Chain.seps_of_mem_cut (hcut.symm ▸ he) ho'
      have hne : o'.type.code ≠ o.type.code := fun h =>
        of_decide_eq_false hother (OperationToken.code_injective h)
      have := hloosest o' hseps
      omega
    · intro child hchild
      obtain ⟨e, he, rfl⟩ := hchildren child hchild
      exact (ih e he).tighter

/-- `convert_to_operation` groups a chain at its loosest operators, in calls whose depth is at most the
number of the operators. -/
theorem convertToOperation_chain (c : Chain ParsedValue OperationAt) :
    ∃ tree : OperationTree, tree.Groups c ∧
      ∀ depth, c.seps.length ≤ depth →
        convertToOperation depth c.items c.seps = .ok tree.value := by
  induction hlength : c.seps.length using Nat.strong_induction_on generalizing c with
  | _ n ih =>
    by_cases hnil : c.seps = []
    · obtain ⟨first, rest⟩ := c
      obtain rfl : rest = [] := List.map_eq_nil_iff.mp hnil
      refine ⟨.operand first, .operand first, ?_⟩
      intro depth _
      cases depth with
      | zero => rfl
      | succ depth => rfl
    obtain ⟨operation, hoperation, hmem, hloosest, hpositions⟩ := scanOperations_loosest hnil
    let isLoosest : OperationAt → Bool := fun o => o.type = operation.type
    have hcuts : ∃ o ∈ c.seps, isLoosest o = true := ⟨operation, hmem, decide_eq_true rfl⟩
    have hshorter (d : Chain ParsedValue OperationAt) (hd : d ∈ c.cut isLoosest) :
        d.seps.length < n := hlength ▸ Chain.length_seps_lt_of_mem_cut hd hcuts
    -- The induction hypothesis gives a tree for each of the chains between the loosest operators.
    have hchild (d : Chain ParsedValue OperationAt) : ∃ tree : OperationTree,
        d ∈ c.cut isLoosest → tree.Groups d ∧ ∀ depth, d.seps.length ≤ depth →
          convertToOperation depth d.items d.seps = .ok tree.value := by
      by_cases hd : d ∈ c.cut isLoosest
      · obtain ⟨tree, htree⟩ := ih _ (hshorter d hd) d rfl
        exact ⟨tree, fun _ => htree⟩
      · exact ⟨.operand d.first, fun hmem => absurd hmem hd⟩
    choose tree htree using hchild
    obtain ⟨d, ds, hcut⟩ := List.exists_cons_of_ne_nil (c.cut_ne_nil isLoosest)
    refine ⟨.operation operation.loc operation.type (tree d) (ds.map tree), ?_, ?_⟩
    · exact .operation hmem hloosest hcut fun e he => (htree e (hcut ▸ he)).1
    · intro depth hdepth
      obtain ⟨depth, rfl⟩ : ∃ k, depth = k + 1 :=
        Nat.exists_eq_succ_of_ne_zero (by
          have := List.length_pos_of_ne_nil hnil
          omega)
      have hslices : convertSlices (convertToOperation depth) c.items c.seps 0
          (positionsFrom operation.type 0 c.seps) =
            .ok ((tree d).value, ds.map fun e => (tree e).value) :=
        convertSlices_cut rfl rfl (Nat.zero_le _) c.length_items hcut fun e he =>
          (htree e he).2 depth (by have := hshorter e he; omega)
      have hitems : c.items.length ≠ 1 := by
        have := c.length_items
        have := List.length_pos_of_ne_nil hnil
        omega
      rw [convertToOperation_succ hitems hoperation, hpositions, hslices, OperationTree.value,
        OperationTree.values_eq_map, List.map_map]
      rfl

/-- `convert_to_operation` makes a right tree of every list of operands and the list of the operators
between them. -/
theorem convertToOperation_isOf {toOperateOn : List ParsedValue} {operations : List OperationAt}
    (h : toOperateOn.length = operations.length + 1) :
    ∃ (c : Chain ParsedValue OperationAt) (tree : OperationTree),
      c.items = toOperateOn ∧ c.seps = operations ∧ tree.IsOf c ∧
        ∀ depth, operations.length ≤ depth →
          convertToOperation depth toOperateOn operations = .ok tree.value := by
  obtain ⟨c, rfl, rfl⟩ := Chain.exists_of_lengths h
  obtain ⟨tree, htree, hconvert⟩ := convertToOperation_chain c
  exact ⟨c, tree, rfl, rfl, htree.isOf, hconvert⟩

/-- `null + null * null` -/
theorem convertToOperation_isOf_three :
    ∃ (c : Chain ParsedValue OperationAt) (tree : OperationTree),
      c.items = [.null, .null, .null] ∧ c.seps = [⟨.plus, ⟨1, 6, 1⟩⟩, ⟨.star, ⟨1, 13, 1⟩⟩] ∧
        tree.IsOf c ∧ ∀ depth, 2 ≤ depth →
          convertToOperation depth [.null, .null, .null]
            [⟨.plus, ⟨1, 6, 1⟩⟩, ⟨.star, ⟨1, 13, 1⟩⟩] = .ok tree.value :=
  convertToOperation_isOf rfl

/-- `null + null * null + null` has the product inside. -/
example :
    convertToOperation 3 [.null, .null, .null, .null]
        [⟨.plus, ⟨1, 6, 1⟩⟩, ⟨.star, ⟨1, 13, 1⟩⟩, ⟨.plus, ⟨1, 20, 1⟩⟩] =
      .ok (.operation ⟨1, 6, 1⟩ .plus .null
        [.operation ⟨1, 13, 1⟩ .star .null [.null], .null]) := rfl

end Chloride
