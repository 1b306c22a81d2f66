import GeckoOS.Gk.Syntax

/-! What the helpers of the parser do to the state: the cursor moves over tokens
and nodes are put behind the others. -/
namespace GeckoOS.Gk
open Lib
variable {s s' s'' : Run} {t : TokenType} {tok : Token} {rest : List Token}

/-- The token at the cursor. -/
def Run.current (s : Run) : Token := s.tokens.getD s.tokPos eofToken

/-- The tokens from the cursor on. -/
def Run.ahead (s : Run) : List Token := s.tokens.drop s.tokPos

/-- The state with the cursor moved by `k`. -/
def Run.forward (s : Run) (k : Nat) : Run := { s with tokPos := s.tokPos + k }

@[simp] theorem forward_nodes (s : Run) (k : Nat) : (s.forward k).nodes = s.nodes := rfl

theorem current_of_ahead (h : s.ahead = tok :: rest) : s.current = tok := by
  have hg : s.tokens[s.tokPos]? = some tok := by
    rw [← List.head?_drop, ← Run.ahead, h, List.head?_cons]
  rw [Run.current, List.getD_eq_getElem?_getD, hg, Option.getD_some]

theorem current_headD (s : Run) : s.current = s.ahead.headD eofToken := by
  rw [Run.current, Run.ahead, List.getD_eq_getElem?_getD, ← List.head?_drop, List.headD_eq_head?_getD]

theorem ahead_forward (s : Run) (k : Nat) : (s.forward k).ahead = s.ahead.drop k := by
  rw [Run.ahead, Run.ahead, List.drop_drop, Run.forward]

/-- In front of the end there is a token. -/
theorem ahead_of_current (h : s.current.type ≠ .eof) : s.ahead = s.current :: (s.forward 1).ahead := by
  rw [ahead_forward]
  cases ha : s.ahead with
  | nil =>
    rw [current_headD, ha] at h
    exact absurd rfl h
  | cons t ts => rw [current_of_ahead ha, List.drop_succ_cons, List.drop_zero]

@[simp] theorem peek_apply (s : Run) : peek s = .ok s.current s := rfl

@[simp] theorem check_apply (t : TokenType) (s : Run) : check t s = .ok (s.current.type == t) s := rfl

theorem advance_apply (h : s.current.type ≠ .eof) : advance s = .ok () (s.forward 1) := by
  rw [advance, bind_ok (peek_apply s), if_pos h]
  rfl

theorem matchToken_hit (h : s.current.type = t) (ht : t ≠ .eof) : matchToken t s = .ok true (s.forward 1) := by
  rw [matchToken, bind_ok (check_apply t s), if_pos (beq_iff_eq.mpr h), bind_ok (advance_apply (h ▸ ht))]
  rfl

theorem matchToken_miss (h : s.current.type ≠ t) : matchToken t s = .ok false s := by
  rw [matchToken, bind_ok (check_apply t s), if_neg (by simpa using h)]
  rfl

theorem expect_hit (h : s.current.type = t) (ht : t ≠ .eof) (e : GkError) :
    expect t e s = .ok () (s.forward 1) := by
  rw [expect, bind_ok (matchToken_hit h ht)]
  rfl

theorem expect_miss (h : s.current.type ≠ t) (e : GkError) :
    expect t e s = .error .failed { s with error := some e } := by
  rw [expect, bind_ok (matchToken_miss h)]
  rfl

/-- The cursor moves by `k` and nodes are put behind the others. -/
structure Grows (k : Nat) (new : List Node) (s s' : Run) : Prop where
  nodes : s'.nodes = s.nodes ++ new
  tokPos : s'.tokPos = s.tokPos + k
  frame : { s' with nodes := s.nodes, tokPos := s.tokPos, past := s.past } = s

namespace Grows
variable {k k' : Nat} {new new' : List Node} {node : Node}

theorem forward (s : Run) (k : Nat) : Grows k [] s (s.forward k) := ⟨(List.append_nil _).symm, rfl, rfl⟩

theorem trans (h : Grows k new s s') (h' : Grows k' new' s' s'') : Grows (k + k') (new ++ new') s s'' where
  nodes := by rw [h'.nodes, h.nodes, List.append_assoc]
  tokPos := by rw [h'.tokPos, h.tokPos, Nat.add_assoc]
  frame := by
    have hf := h.frame
    rw [← h'.frame] at hf
    exact hf

theorem tokens (h : Grows k new s s') : s'.tokens = s.tokens :=
  (congrArg (fun r : Run => r.tokens) h.frame :)

theorem error (h : Grows k new s s') : s'.error = s.error :=
  (congrArg (fun r : Run => r.error) h.frame :)

theorem ahead (h : Grows k new s s') : s'.ahead = s.ahead.drop k := by
  rw [Run.ahead, Run.ahead, List.drop_drop, h.tokPos, h.tokens]

theorem length (h : Grows k new s s') : s'.nodes.length = s.nodes.length + new.length := by
  rw [h.nodes, List.length_append]

end Grows

theorem newNode_room (type : NodeType) (line : Nat) (h : s.nodes.length < maxNodes) :
    ∃ s', newNode type line s = .ok s.nodes.length s' ∧ Grows 0 [⟨type, line, 0, [], .int, []⟩] s s' := by
  rw [newNode, bind_ok (get_apply s), if_neg (by omega)]
  exact ⟨_, rfl, rfl, rfl, rfl⟩

theorem newNode_full (type : NodeType) (line : Nat) (h : maxNodes ≤ s.nodes.length) :
    newNode type line s = .error .failed { s with error := some .tooManyNodes } := by
  rw [newNode, bind_ok (get_apply s), if_pos h]
  rfl

private theorem modify_middle {α : Type} (before after : List α) (x : α) (f : α → α) :
    (before ++ x :: after).modify before.length f = before ++ f x :: after := by
  rw [List.modify_eq_take_cons_drop (by simp)]
  simp

/-- Fields of a node that was put behind the nodes of `s`. -/
theorem setNode_grown {k : Nat} {node : Node} {new : List Node} {f : Node → Node}
    (h : Grows k (node :: new) s s') :
    ∃ s'', setNode s.nodes.length f s' = .ok () s'' ∧ Grows k (f node :: new) s s'' := by
  refine ⟨_, rfl, ?_, h.tokPos, h.frame⟩
  change s'.nodes.modify _ f = _
  rw [h.nodes, modify_middle]

theorem leaf_room (type : NodeType) (line : Nat) (v : Int) (str : List UInt8) (h : s.nodes.length < maxNodes) :
    ∃ s', leaf type line v str s = .ok s.nodes.length s' ∧ Grows 0 [⟨type, line, v, str, .int, []⟩] s s' := by
  obtain ⟨s₁, h₁, hg₁⟩ := newNode_room type line h
  obtain ⟨s₂, h₂, hg₂⟩ := setNode_grown hg₁
  exact ⟨s₂, by rw [leaf, bind_ok h₁, bind_ok h₂, pure_apply], hg₂⟩

theorem operatorNode_room (type : NodeType) (tok : Token) (kids : List Nat) (h : s.nodes.length < maxNodes) :
    ∃ s', operatorNode type tok kids s = .ok s.nodes.length s' ∧
      Grows 0 [⟨type, tok.line, 0, [], tok.type, kids⟩] s s' := by
  obtain ⟨s₁, h₁, hg₁⟩ := newNode_room type tok.line h
  obtain ⟨s₂, h₂, hg₂⟩ := setNode_grown hg₁
  exact ⟨s₂, by rw [operatorNode, bind_ok h₁, bind_ok h₂, pure_apply], hg₂⟩

/-! The arena when nodes are added to it. -/

theorem cell_append (nodes new : List Node) {i : Nat} (h : i < nodes.length) :
    cell (nodes ++ new) i = cell nodes i := by
  rw [cell, List.getElem?_append_left h, ← cell]

theorem cell_middle (before after : List Node) (x y : Node) {i : Nat} (h : i ≠ before.length) :
    cell (before ++ x :: after) i = cell (before ++ y :: after) i := by
  obtain hi | hi : i < before.length ∨ before.length < i := Nat.lt_or_gt_of_ne h
  · rw [cell_append _ _ hi, cell_append _ _ hi]
  · obtain ⟨j, rfl⟩ := Nat.exists_eq_add_of_lt hi
    rw [cell, cell, List.getElem?_append_right (by omega), List.getElem?_append_right (by omega)]
    have hj : before.length + j + 1 - before.length = j + 1 := by omega
    rw [hj, List.getElem?_cons_succ, List.getElem?_cons_succ]

theorem cell_at (before after : List Node) (x : Node) :
    cell (before ++ x :: after) before.length = some (x.label, x.children) := by
  rw [cell, List.getElem?_append_right (Nat.le_refl _), Nat.sub_self]
  rfl

/-- Trees stay where they are when nodes are added. -/
theorem Grows.laid {k lo hi : Nat} {new : List Node} {ts : List (Lib.Tree Label)} {roots : List Nat}
    (h : Grows k new s s')
    (hl : Laid (cell s.nodes) lo ts roots hi) (hhi : hi ≤ s.nodes.length) :
      Laid (cell s'.nodes) lo ts roots hi := by
  refine hl.congr fun i _ hi' => ?_
  rw [h.nodes, cell_append _ _ (by omega)]

/-- A new node is the root of the trees in front of it. -/
theorem Grows.laid_post {k lo : Nat} {node : Node} {ts : List (Lib.Tree Label)} (h : Grows k [node] s s')
    (hl : Laid (cell s.nodes) lo ts node.children s.nodes.length) :
    Laid (cell s'.nodes) lo [.node node.label ts] [s.nodes.length] s'.nodes.length := by
  refine .post (h.laid hl (Nat.le_refl _)) ?_ ?_
  · rw [h.nodes, cell_at]
  · rw [h.length]
    exact .nil _

/-- A node is the root of the trees behind it. -/
theorem Grows.laid_pre {k : Nat} {node : Node} {new : List Node} {ts : List (Lib.Tree Label)}
    (h : Grows k (node :: new) s s')
    (hl : Laid (cell s'.nodes) (s.nodes.length + 1) ts node.children s'.nodes.length) :
    Laid (cell s'.nodes) s.nodes.length [.node node.label ts] [s.nodes.length] s'.nodes.length := by
  refine .pre ?_ hl (.nil _)
  rw [h.nodes, cell_at]

/-- The trees behind a node do not depend on it. -/
theorem Grows.laid_behind {k k' lo hi : Nat} {x y : Node} {new : List Node} {ts : List (Lib.Tree Label)}
    {roots : List Nat}
    (h : Grows k (x :: new) s s') (h' : Grows k' (y :: new) s s'')
    (hl : Laid (cell s'.nodes) lo ts roots hi) (hlo : s.nodes.length < lo) :
      Laid (cell s''.nodes) lo ts roots hi := by
  refine hl.congr fun i hi' _ => ?_
  rw [h.nodes, h'.nodes, cell_middle _ _ y x (by omega)]

/-- A node was put behind the nodes of `s`, and so far it has these trees as children. -/
def Open (s : Run) (k : Nat) (label : Label) (trees : List (Lib.Tree Label)) (s' : Run) : Prop :=
  ∃ node new, Grows k (node :: new) s s' ∧ node.label = label ∧
    Laid (cell s'.nodes) (s.nodes.length + 1) trees node.children s'.nodes.length

namespace Open
variable {k k' c : Nat} {label : Label} {trees : List (Lib.Tree Label)} {tree : Lib.Tree Label}
  {new : List Node}

theorem single {node : Node} (h : Grows k [node] s s') (hk : node.children = []) :
    Open s k node.label [] s' := by
  refine ⟨node, [], h, rfl, ?_⟩
  rw [hk, h.length]
  exact .nil _

theorem forward (h : Open s k label trees s') (k' : Nat) : Open s (k + k') label trees (s'.forward k') := by
  obtain ⟨node, new, hg, hlabel, hl⟩ := h
  exact ⟨node, new, by simpa using hg.trans (.forward s' k'), hlabel, hl⟩

theorem close (h : Open s k label trees s') :
    Laid (cell s'.nodes) s.nodes.length [.node label trees] [s.nodes.length] s'.nodes.length := by
  obtain ⟨node, new, hg, rfl, hl⟩ := h
  exact hg.laid_pre hl

theorem grows (h : Open s k label trees s') : ∃ new, Grows k new s s' := by
  obtain ⟨node, new, hg, -, -⟩ := h
  exact ⟨_, hg⟩

theorem ahead (h : Open s k label trees s') : s'.ahead = s.ahead.drop k := by
  obtain ⟨new, hg⟩ := h.grows
  exact hg.ahead

/-- The next tree is in the array and not yet a child. -/
private theorem pending (h : Open s k label trees s') (hg : Grows k' new s' s'')
    (hl : Laid (cell s''.nodes) s'.nodes.length [tree] [c] s''.nodes.length) :
    ∃ node new, Grows (k + k') (node :: new) s s'' ∧ node.label = label ∧ trees.length = node.children.length ∧
      Laid (cell s''.nodes) (s.nodes.length + 1) (trees ++ [tree]) (node.children ++ [c]) s''.nodes.length := by
  obtain ⟨node, new', hg', hlabel, hl'⟩ := h
  exact ⟨node, new' ++ new, by simpa using hg'.trans hg, hlabel, hl'.length_eq,
    (hg.laid hl' (Nat.le_refl _)).append hl⟩

private theorem children_at {node : Node} (h : Grows k (node :: new) s s') :
    (s'.nodes[s.nodes.length]?.map fun x => x.children.length).getD 0 = node.children.length := by
  rw [h.nodes, List.getElem?_append_right (Nat.le_refl _), Nat.sub_self]
  rfl

theorem childCount (h : Open s k label trees s') (hg : Grows k' new s' s'') :
    (s''.nodes[s.nodes.length]?.map fun x => x.children.length).getD 0 = trees.length := by
  obtain ⟨node, new', hg', -, hl⟩ := h
  have hg'' : Grows (k + k') (node :: (new' ++ new)) s s'' := by simpa using hg'.trans hg
  rw [children_at hg'', hl.length_eq]

theorem addChild_room (h : Open s k label trees s') (hg : Grows k' new s' s'')
    (hl : Laid (cell s''.nodes) s'.nodes.length [tree] [c] s''.nodes.length)
    (hroom : trees.length < maxChildren) :
    ∃ s₃, addChild s.nodes.length c s'' = .ok () s₃ ∧ Open s (k + k') label (trees ++ [tree]) s₃ ∧
      s₃.nodes.length = s''.nodes.length := by
  obtain ⟨node, new', hg', hlabel, hlen, hl'⟩ := h.pending hg hl
  obtain ⟨s₃, hset, hg₃⟩ := setNode_grown (f := fun x => { x with children := x.children ++ [c] }) hg'
  have hlen₃ : s₃.nodes.length = s''.nodes.length := by
    rw [hg₃.length, hg'.length, List.length_cons, List.length_cons]
  refine ⟨s₃, ?_, ⟨_, new', hg₃, hlabel, ?_⟩, hlen₃⟩
  · rw [addChild, bind_ok (get_apply s''), children_at hg', if_pos (by omega)]
    exact hset
  · rw [hlen₃]
    exact hg'.laid_behind hg₃ hl' (Nat.lt_succ_self _)

theorem addChild_full (h : Open s k label trees s') (hg : Grows k' new s' s'')
    (hl : Laid (cell s''.nodes) s'.nodes.length [tree] [c] s''.nodes.length)
    (hfull : maxChildren ≤ trees.length) :
    addChild s.nodes.length c s'' = .error .overrun s'' := by
  obtain ⟨node, new', hg', -, hlen, -⟩ := h.pending hg hl
  rw [addChild, bind_ok (get_apply s''), children_at hg', if_neg (by omega), throw_apply]

theorem addChecked_room (h : Open s k label trees s') (hg : Grows k' new s' s'')
    (hl : Laid (cell s''.nodes) s'.nodes.length [tree] [c] s''.nodes.length)
    (hroom : trees.length < maxChildren)
    (e : GkError) : ∃ s₃, addChecked s.nodes.length c e s'' = .ok () s₃ ∧
    Open s (k + k') label (trees ++ [tree]) s₃ ∧
      s₃.nodes.length = s''.nodes.length := by
  obtain ⟨node, new', hg', -, hlen, -⟩ := h.pending hg hl
  obtain ⟨s₃, hadd, hopen⟩ := h.addChild_room hg hl hroom
  refine ⟨s₃, ?_, hopen⟩
  rw [addChecked, bind_ok (get_apply s''), children_at hg', if_neg (by omega)]
  exact hadd

theorem addChecked_full (h : Open s k label trees s') (hg : Grows k' new s' s'')
    (hl : Laid (cell s''.nodes) s'.nodes.length [tree] [c] s''.nodes.length)
    (hfull : maxChildren ≤ trees.length)
    (e : GkError) : addChecked s.nodes.length c e s'' = .error .failed { s'' with error := some e } := by
  obtain ⟨node, new', hg', -, hlen, -⟩ := h.pending hg hl
  rw [addChecked, bind_ok (get_apply s''), children_at hg', if_pos (by omega)]
  rfl

theorem addChild_ok {s₃ : Run} (h : Open s k label trees s') (hg : Grows k' new s' s'')
    (hl : Laid (cell s''.nodes) s'.nodes.length [tree] [c] s''.nodes.length)
    (hadd : addChild s.nodes.length c s'' = .ok () s₃) :
    trees.length < maxChildren ∧ Open s (k + k') label (trees ++ [tree]) s₃ := by
  obtain hroom | hfull := Nat.lt_or_ge trees.length maxChildren
  · obtain ⟨s₄, hadd', hopen, -⟩ := h.addChild_room hg hl hroom
    rw [hadd] at hadd'
    cases hadd'
    exact ⟨hroom, hopen⟩
  · rw [h.addChild_full hg hl hfull] at hadd
    cases hadd

theorem addChecked_ok {s₃ : Run} {e : GkError} (h : Open s k label trees s') (hg : Grows k' new s' s'')
    (hl : Laid (cell s''.nodes) s'.nodes.length [tree] [c] s''.nodes.length)
    (hadd : addChecked s.nodes.length c e s'' = .ok () s₃) : Open s (k + k') label (trees ++ [tree]) s₃ := by
  obtain hroom | hfull := Nat.lt_or_ge trees.length maxChildren
  · obtain ⟨s₄, hadd', hopen, -⟩ := h.addChecked_room hg hl hroom e
    rw [hadd] at hadd'
    cases hadd'
    exact hopen
  · rw [h.addChecked_full hg hl hfull] at hadd
    cases hadd

end Open

/-- A node was put behind the nodes of `s`, and the trees with these roots behind it. -/
def Behind (s : Run) (k : Nat) (label : Label) (trees : List (Lib.Tree Label)) (roots : List Nat)
    (s' : Run) : Prop :=
  ∃ node new, Grows k (node :: new) s s' ∧ node.label = label ∧
    Laid (cell s'.nodes) (s.nodes.length + 1) trees roots s'.nodes.length

namespace Behind
variable {k k' : Nat} {label : Label} {trees trees' : List (Lib.Tree Label)} {roots roots' : List Nat}
  {new : List Node}

theorem single {node : Node} (h : Grows k [node] s s') : Behind s k node.label [] [] s' := by
  refine ⟨node, [], h, rfl, ?_⟩
  rw [h.length]
  exact .nil _

theorem append (h : Behind s k label trees roots s') (hg : Grows k' new s' s'')
    (hl : Laid (cell s''.nodes) s'.nodes.length trees' roots' s''.nodes.length) :
    Behind s (k + k') label (trees ++ trees') (roots ++ roots') s'' := by
  obtain ⟨node, new', hg', hlabel, hl'⟩ := h
  exact ⟨node, new' ++ new, by simpa using hg'.trans hg, hlabel, (hg.laid hl' (Nat.le_refl _)).append hl⟩

theorem forward (h : Behind s k label trees roots s') (k' : Nat) :
    Behind s (k + k') label trees roots (s'.forward k') := by
  obtain ⟨node, new, hg, hlabel, hl⟩ := h
  exact ⟨node, new, by simpa using hg.trans (.forward s' k'), hlabel, hl⟩

/-- The roots become the children of the node. -/
theorem set (h : Behind s k label trees roots s')
    (hset : setNode s.nodes.length (fun x => { x with children := roots }) s' = .ok () s'') :
    Behind s k label trees roots s'' ∧ Open s k label trees s'' := by
  obtain ⟨node, new, hg, hlabel, hl⟩ := h
  obtain ⟨s₃, hset', hg₃⟩ := setNode_grown (f := fun x => { x with children := roots }) hg
  rw [hset] at hset'
  cases hset'
  have hlen : s''.nodes.length = s'.nodes.length := by
    rw [hg₃.length, hg.length, List.length_cons, List.length_cons]
  have hl' := hg.laid_behind hg₃ hl (Nat.lt_succ_self _)
  rw [← hlen] at hl'
  exact ⟨⟨_, new, hg₃, hlabel, hl'⟩, ⟨_, new, hg₃, hlabel, hl'⟩⟩

end Behind

end GeckoOS.Gk
