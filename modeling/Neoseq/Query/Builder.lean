import Neoseq.Query.Plan

/-! The tree edits of the query builder. They find the node they change by its id, and ids
come from a counter that starts again with each load of the page. -/

namespace Neoseq.Query

/-! ## Ids -/

def base36Digit (digit : Nat) : Char := Char.ofNat (if digit < 10 then 48 + digit else 87 + digit)

def base36From : (rounds number : Nat) → List Char → List Char
  | 0, _, digits => digits
  | rounds + 1, number, digits =>
    let digits := base36Digit (number % 36) :: digits
    if number / 36 = 0 then digits else base36From rounds (number / 36) digits

/-- `sequence.toString(36)`. -/
def base36 (number : Nat) : String := String.ofList (base36From (number + 1) number [])

/-- The id that the counter gives at a number. -/
def planId (kind : String) (sequence : Nat) : String := kind ++ base36 sequence

def PlanNode.id : PlanNode → String
  | .condition id .. => id
  | .group id .. => id

def PlanNode.children : PlanNode → List PlanNode
  | .condition .. => []
  | .group _ _ children => children

mutual

/-- The ids of a node and of what is below it. -/
def PlanNode.ids : PlanNode → List String
  | .condition id .. => [id]
  | .group id _ children => id :: idsOf children

def idsOf : List PlanNode → List String
  | [] => []
  | child :: rest => child.ids ++ idsOf rest

end

/-! ## Edits by id -/

mutual

/-- A node with the nodes of an id below it replaced or, for `none`, removed. -/
def replaceNode (id : String) (next : Option PlanNode) : PlanNode → PlanNode
  | .condition own field op value value2 => .condition own field op value value2
  | .group own mode children => .group own mode (replaceChildren id next children)

def replaceChildren (id : String) (next : Option PlanNode) : List PlanNode → List PlanNode
  | [] => []
  | child :: rest =>
    if child.id = id then next.toList ++ replaceChildren id next rest
    else replaceNode id next child :: replaceChildren id next rest

end

mutual

def appendNode (groupId : String) (node : PlanNode) : PlanNode → PlanNode
  | .condition own field op value value2 => .condition own field op value value2
  | .group own mode children =>
    if own = groupId then .group own mode (children ++ [node])
    else .group own mode (appendChildren groupId node children)

def appendChildren (groupId : String) (node : PlanNode) : List PlanNode → List PlanNode
  | [] => []
  | child :: rest => appendNode groupId node child :: appendChildren groupId node rest

end

/-! ## Nodes by where they are -/

def PlanNode.withChildren : PlanNode → List PlanNode → PlanNode
  | .condition id field op value value2, _ => .condition id field op value value2
  | .group id mode _, children => .group id mode children

/-- The node that a path of child indices leads to. -/
def nodeAt : List Nat → PlanNode → Option PlanNode
  | [], node => some node
  | index :: path, node => node.children[index]?.bind (nodeAt path)

/-- A tree in which only the node that a path leads to is changed. -/
def changeAt (f : PlanNode → PlanNode) : List Nat → PlanNode → PlanNode
  | [], node => f node
  | index :: path, node => node.withChildren (node.children.modify index (changeAt f path))

/-- Children of which only one is replaced or removed. -/
def replaceAt (children : List PlanNode) (index : Nat) (next : Option PlanNode) :
    List PlanNode :=
  children.take index ++ next.toList ++ children.drop (index + 1)

/-! ## Ids that are not there -/

mutual

theorem replaceNode_of_not_mem {id : String} {next : Option PlanNode} :
    ∀ {node : PlanNode}, id ∉ node.ids → replaceNode id next node = node
  | .condition .., _ => rfl
  | .group own mode children, h => by
    rw [replaceNode, replaceChildren_of_not_mem fun hmem => h (List.mem_cons_of_mem _ hmem)]

theorem replaceChildren_of_not_mem {id : String} {next : Option PlanNode} :
    ∀ {children : List PlanNode}, id ∉ idsOf children →
      replaceChildren id next children = children
  | [], _ => rfl
  | child :: rest, h => by
    obtain ⟨hchild, hrest⟩ := not_or.mp fun hor => h (List.mem_append.mpr hor)
    have hne : child.id ≠ id := by
      rintro rfl
      cases child <;> exact hchild List.mem_cons_self
    rw [replaceChildren, if_neg hne, replaceNode_of_not_mem hchild,
      replaceChildren_of_not_mem hrest]

end

mutual

theorem appendNode_of_not_mem {id : String} {node : PlanNode} :
    ∀ {root : PlanNode}, id ∉ root.ids → appendNode id node root = root
  | .condition .., _ => rfl
  | .group own mode children, h => by
    have hne : own ≠ id := fun heq => h (heq ▸ List.mem_cons_self)
    rw [appendNode, if_neg hne,
      appendChildren_of_not_mem fun hmem => h (List.mem_cons_of_mem _ hmem)]

theorem appendChildren_of_not_mem {id : String} {node : PlanNode} :
    ∀ {children : List PlanNode}, id ∉ idsOf children →
      appendChildren id node children = children
  | [], _ => rfl
  | child :: rest, h => by
    obtain ⟨hchild, hrest⟩ := not_or.mp fun hor => h (List.mem_append.mpr hor)
    rw [appendChildren, appendNode_of_not_mem hchild, appendChildren_of_not_mem hrest]

end

/-! ## Distinct ids -/

theorem PlanNode.id_mem_ids (node : PlanNode) : node.id ∈ node.ids := by
  cases node <;> exact List.mem_cons_self

theorem idsOf_append (children rest : List PlanNode) :
    idsOf (children ++ rest) = idsOf children ++ idsOf rest := by
  induction children with
  | nil => rfl
  | cons child children ih => rw [List.cons_append, idsOf, ih, idsOf, List.append_assoc]

theorem ids_children {node : PlanNode} : idsOf node.children = node.ids.tail := by
  cases node <;> rfl

/-- Below a node the ids are those before, of and behind a child. -/
theorem idsOf_split {children : List PlanNode} {index : Nat} {child : PlanNode}
    (h : children[index]? = some child) :
    idsOf children = idsOf (children.take index) ++ (child.ids ++
      idsOf (children.drop (index + 1))) := by
  obtain ⟨hlt, rfl⟩ := List.getElem?_eq_some_iff.mp h
  conv => lhs; rw [← List.take_append_drop index children, idsOf_append,
    List.drop_eq_getElem_cons hlt, idsOf]

theorem modify_split {children : List PlanNode} {index : Nat} {child : PlanNode}
    (h : children[index]? = some child) (f : PlanNode → PlanNode) :
    children.modify index f = replaceAt children index (some (f child)) := by
  obtain ⟨hlt, rfl⟩ := List.getElem?_eq_some_iff.mp h
  unfold replaceAt
  rw [List.modify_eq_take_cons_drop hlt]
  simp

theorem idsOf_subset {children : List PlanNode} {index : Nat} {child : PlanNode}
    (h : children[index]? = some child) {id : String} (hid : id ∈ child.ids) :
    id ∈ idsOf children := by
  rw [idsOf_split h]
  exact List.mem_append_right _ (List.mem_append_left _ hid)

theorem mem_ids_of_mem_children {node : PlanNode} {id : String} (h : id ∈ idsOf node.children) :
    id ∈ node.ids := by
  rw [ids_children] at h
  exact List.mem_of_mem_tail h

theorem ne_id_of_mem_children {node : PlanNode} (hnodup : node.ids.Nodup) {id : String}
    (h : id ∈ idsOf node.children) : node.id ≠ id := by
  cases node with
  | condition => cases h
  | group own mode children =>
    rintro rfl
    exact (List.nodup_cons.mp hnodup).1 h

theorem nodup_children {node : PlanNode} (h : node.ids.Nodup) : (idsOf node.children).Nodup := by
  rw [ids_children]
  exact h.sublist (List.tail_sublist _)

theorem nodup_child {children : List PlanNode} (h : (idsOf children).Nodup) {index : Nat}
    {child : PlanNode} (hchild : children[index]? = some child) : child.ids.Nodup := by
  rw [idsOf_split hchild] at h
  exact (List.nodup_append.mp (List.nodup_append.mp h).2.1).1

/-- An id of a child is in no sibling. -/
theorem not_mem_siblings {children : List PlanNode} (h : (idsOf children).Nodup) {index : Nat}
    {child : PlanNode} (hchild : children[index]? = some child) {id : String}
    (hid : id ∈ child.ids) :
    id ∉ idsOf (children.take index) ∧ id ∉ idsOf (children.drop (index + 1)) := by
  rw [idsOf_split hchild] at h
  obtain ⟨-, hrest, hbefore⟩ := List.nodup_append.mp h
  obtain ⟨-, -, hbehind⟩ := List.nodup_append.mp hrest
  exact ⟨fun hmem => hbefore id hmem id (List.mem_append_left _ hid) rfl,
    fun hmem => hbehind id hid id hmem rfl⟩

theorem nodeAt_subset {path : List Nat} {root node : PlanNode} (h : nodeAt path root = some node)
    {id : String} (hid : id ∈ node.ids) : id ∈ root.ids := by
  induction path generalizing root with
  | nil =>
    obtain rfl := Option.some.inj h
    exact hid
  | cons index path ih =>
    obtain ⟨child, hchild, hnode⟩ := Option.bind_eq_some_iff.mp h
    exact mem_ids_of_mem_children (idsOf_subset hchild (ih hnode))

theorem nodup_nodeAt {path : List Nat} {root node : PlanNode} (hnodup : root.ids.Nodup)
    (h : nodeAt path root = some node) : node.ids.Nodup := by
  induction path generalizing root with
  | nil =>
    obtain rfl := Option.some.inj h
    exact hnodup
  | cons index path ih =>
    obtain ⟨child, hchild, hnode⟩ := Option.bind_eq_some_iff.mp h
    exact ih (nodup_child (nodup_children hnodup) hchild) hnode

/-! ## With distinct ids an edit is where its node is -/

theorem replaceChildren_append (id : String) (next : Option PlanNode)
    (children rest : List PlanNode) :
    replaceChildren id next (children ++ rest) =
      replaceChildren id next children ++ replaceChildren id next rest := by
  induction children with
  | nil => rfl
  | cons child children ih =>
    rw [List.cons_append, replaceChildren, replaceChildren, ih]
    split
    · rw [List.append_assoc]
    · rfl

theorem appendChildren_append (id : String) (node : PlanNode) (children rest : List PlanNode) :
    appendChildren id node (children ++ rest) =
      appendChildren id node children ++ appendChildren id node rest := by
  induction children with
  | nil => rfl
  | cons child children ih =>
    rw [List.cons_append, appendChildren, appendChildren, ih, List.cons_append]

theorem eq_take_cons_drop {children : List PlanNode} {index : Nat} {child : PlanNode}
    (h : children[index]? = some child) :
    children = children.take index ++ child :: children.drop (index + 1) := by
  obtain ⟨hlt, rfl⟩ := List.getElem?_eq_some_iff.mp h
  rw [← List.drop_eq_getElem_cons hlt, List.take_append_drop]

theorem replaceChildren_at {children : List PlanNode} (h : (idsOf children).Nodup) {index : Nat}
    {child : PlanNode} (hchild : children[index]? = some child) (next : Option PlanNode) :
    replaceChildren child.id next children = replaceAt children index next := by
  obtain ⟨hbefore, hbehind⟩ := not_mem_siblings h hchild child.id_mem_ids
  conv => lhs; rw [eq_take_cons_drop hchild, replaceChildren_append, replaceChildren]
  rw [if_pos rfl, replaceChildren_of_not_mem hbefore, replaceChildren_of_not_mem hbehind]
  exact (List.append_assoc _ _ _).symm

theorem replaceChildren_below {children : List PlanNode} (h : (idsOf children).Nodup)
    {index : Nat} {child : PlanNode} (hchild : children[index]? = some child) {id : String}
    (hid : id ∈ idsOf child.children) (next : Option PlanNode) :
    replaceChildren id next children = children.modify index (replaceNode id next) := by
  obtain ⟨hbefore, hbehind⟩ := not_mem_siblings h hchild (mem_ids_of_mem_children hid)
  have hne := ne_id_of_mem_children (nodup_child h hchild) hid
  rw [modify_split hchild]
  conv => lhs; rw [eq_take_cons_drop hchild, replaceChildren_append, replaceChildren]
  rw [if_neg hne, replaceChildren_of_not_mem hbefore, replaceChildren_of_not_mem hbehind]
  unfold replaceAt
  rw [List.append_assoc]
  rfl

theorem appendChildren_below {children : List PlanNode} (h : (idsOf children).Nodup)
    {index : Nat} {child : PlanNode} (hchild : children[index]? = some child) {id : String}
    (hid : id ∈ child.ids) (node : PlanNode) :
    appendChildren id node children = children.modify index (appendNode id node) := by
  obtain ⟨hbefore, hbehind⟩ := not_mem_siblings h hchild hid
  rw [modify_split hchild]
  conv => lhs; rw [eq_take_cons_drop hchild, appendChildren_append, appendChildren]
  rw [appendChildren_of_not_mem hbefore, appendChildren_of_not_mem hbehind]
  unfold replaceAt
  rw [List.append_assoc]
  rfl

theorem modify_congr {children : List PlanNode} {index : Nat} {child : PlanNode}
    (h : children[index]? = some child) {f g : PlanNode → PlanNode} (hfg : f child = g child) :
    children.modify index f = children.modify index g := by
  rw [modify_split h, modify_split h, hfg]

/-- Replacing by id changes only the node at that place. -/
theorem replaceNode_at {path : List Nat} {root parent child : PlanNode}
    (hnodup : root.ids.Nodup) (hparent : nodeAt path root = some parent) {index : Nat}
    (hchild : parent.children[index]? = some child) (next : Option PlanNode) :
    replaceNode child.id next root =
      changeAt (fun node => node.withChildren (replaceAt node.children index next)) path root := by
  induction path generalizing root with
  | nil =>
    obtain rfl := Option.some.inj hparent
    cases root with
    | condition => cases hchild
    | group own mode children =>
      have hchildren : (idsOf children).Nodup := nodup_children hnodup
      have hchild : children[index]? = some child := hchild
      rw [replaceNode, replaceChildren_at hchildren hchild]
      rfl
  | cons i path ih =>
    obtain ⟨node, hnode, hbelow⟩ := Option.bind_eq_some_iff.mp hparent
    have hchildren := nodup_children hnodup
    have hid : child.id ∈ idsOf node.children := by
      have hinside := idsOf_subset hchild child.id_mem_ids
      cases path with
      | nil =>
        obtain rfl := Option.some.inj hbelow
        exact hinside
      | cons j path =>
        obtain ⟨inner, hinner, hdeeper⟩ := Option.bind_eq_some_iff.mp hbelow
        exact idsOf_subset hinner (nodeAt_subset hdeeper (mem_ids_of_mem_children hinside))
    cases root with
    | condition => cases hnode
    | group own mode children =>
      have hchildren : (idsOf children).Nodup := hchildren
      have hnode : children[i]? = some node := hnode
      rw [replaceNode, replaceChildren_below hchildren hnode hid]
      exact congrArg (PlanNode.group own mode)
        (modify_congr hnode (ih (nodup_child hchildren hnode) hbelow))

theorem replaceNode_child {group child : PlanNode} (hnodup : group.ids.Nodup) {index : Nat}
    (hchild : group.children[index]? = some child) (next : Option PlanNode) :
    replaceNode child.id next group =
      group.withChildren (replaceAt group.children index next) := by
  have hroot : nodeAt [] group = some group := rfl
  exact replaceNode_at hnodup hroot hchild next

/-- Appending by id adds one node to the group at that place. -/
theorem appendNode_at {path : List Nat} {root : PlanNode} (hnodup : root.ids.Nodup)
    {id : String} {mode : PlanMatch} {children : List PlanNode}
    (h : nodeAt path root = some (.group id mode children)) (node : PlanNode) :
    appendNode id node root =
      changeAt (fun group => group.withChildren (group.children ++ [node])) path root := by
  induction path generalizing root with
  | nil =>
    obtain rfl := Option.some.inj h
    rw [appendNode, if_pos rfl]
    rfl
  | cons i path ih =>
    obtain ⟨child, hchild, hbelow⟩ := Option.bind_eq_some_iff.mp h
    have hchildren := nodup_children hnodup
    have hid : id ∈ child.ids := nodeAt_subset hbelow List.mem_cons_self
    cases root with
    | condition => cases hchild
    | group own rootMode siblings =>
      have hne : own ≠ id := ne_id_of_mem_children hnodup (idsOf_subset hchild hid)
      have hchildren : (idsOf siblings).Nodup := hchildren
      have hchild : siblings[i]? = some child := hchild
      rw [appendNode, if_neg hne, appendChildren_below hchildren hchild hid]
      exact congrArg (PlanNode.group own rootMode)
        (modify_congr hchild (ih (nodup_child hchildren hchild) hbelow))

/-! ## The controls of a group -/

/-- What a reader does at one group of the tree. What a filter asks is as the editors give it. -/
inductive Control where
  | setMatch (mode : PlanMatch)
  | addCondition (field : PlanField) (op : PlanOperator) (value : Option PlanValue)
  | addGroup
  | changeCondition (index : Nat) (field : PlanField) (op : PlanOperator)
      (value value2 : Option PlanValue)
  | remove (index : Nat)

/-- The node that a control adds. -/
def Control.added (sequence : Nat) : Control → Option PlanNode
  | .addCondition field op value =>
    some (.condition (planId "c" (sequence + 1)) field op value none)
  | .addGroup => some (.group (planId "g" (sequence + 1)) .any [])
  | _ => none

/-- A filter with other contents under its id. -/
def PlanNode.asking (node : PlanNode) (field : PlanField) (op : PlanOperator)
    (value value2 : Option PlanValue) : PlanNode :=
  match node with
  | .condition id .. => .condition id field op value value2
  | other => other

/-- What a control hands to the `onChange` of its group. -/
def Control.apply (sequence : Nat) (control : Control) (group : PlanNode) : PlanNode :=
  match control with
  | .setMatch mode =>
    match group with
    | .group id _ children => .group id mode children
    | node => node
  | .addCondition .. | .addGroup =>
    match control.added sequence with
    | some node => appendNode group.id node group
    | none => group
  | .changeCondition index field op value value2 =>
    match group.children[index]? with
    | some child => replaceNode child.id (some (child.asking field op value value2)) group
    | none => group
  | .remove index =>
    match group.children[index]? with
    | some child => replaceNode child.id none group
    | none => group

/-- The `onChange` of a group view replaces the group in its parent, up to the root. -/
def through (f : PlanNode → PlanNode) : List Nat → PlanNode → PlanNode
  | [], group => f group
  | index :: path, group =>
    match group.children[index]? with
    | some child => replaceNode child.id (some (through f path child)) group
    | none => group

theorem withChildren_children (node : PlanNode) : node.withChildren node.children = node := by
  cases node <;> rfl

theorem through_eq {path : List Nat} {root : PlanNode} (hnodup : root.ids.Nodup)
    (f : PlanNode → PlanNode) : through f path root = changeAt f path root := by
  induction path generalizing root with
  | nil => rfl
  | cons index path ih =>
    have hchildren := nodup_children hnodup
    rw [through, changeAt]
    cases hchild : root.children[index]? with
    | none =>
      rw [List.modify_eq_self (List.getElem?_eq_none_iff.mp hchild), withChildren_children]
    | some child =>
      dsimp only
      rw [ih (nodup_child hchildren hchild), modify_split hchild]
      exact replaceNode_child hnodup hchild _

/-- What a control is for. -/
def Control.means (sequence : Nat) (control : Control) (group : PlanNode) : PlanNode :=
  match control with
  | .setMatch mode =>
    match group with
    | .group id _ children => .group id mode children
    | node => node
  | .addCondition .. | .addGroup =>
    group.withChildren (group.children ++ (control.added sequence).toList)
  | .changeCondition index field op value value2 =>
    group.withChildren (group.children.modify index fun child =>
      child.asking field op value value2)
  | .remove index => group.withChildren (group.children.eraseIdx index)

theorem appendNode_self (group node : PlanNode) :
    appendNode group.id node group = group.withChildren (group.children ++ [node]) := by
  cases group with
  | condition => rfl
  | group id mode children =>
    show appendNode id node (.group id mode children) = _
    rw [appendNode, if_pos rfl]
    rfl

theorem Control.apply_eq_means {group : PlanNode} (hnodup : group.ids.Nodup) (sequence : Nat)
    (control : Control) : control.apply sequence group = control.means sequence group := by
  cases control with
  | setMatch mode => rfl
  | addCondition field op value => exact appendNode_self group _
  | addGroup => exact appendNode_self group _
  | changeCondition index field op value value2 =>
    unfold Control.apply Control.means
    dsimp only
    cases hchild : group.children[index]? with
    | none =>
      rw [List.modify_eq_self (List.getElem?_eq_none_iff.mp hchild), withChildren_children]
    | some child =>
      dsimp only
      rw [modify_split hchild]
      exact replaceNode_child hnodup hchild _
  | remove index =>
    unfold Control.apply Control.means
    dsimp only
    cases hchild : group.children[index]? with
    | none =>
      rw [List.eraseIdx_of_length_le (List.getElem?_eq_none_iff.mp hchild), withChildren_children]
    | some child =>
      dsimp only
      rw [List.eraseIdx_eq_take_drop_succ, replaceNode_child hnodup hchild]
      unfold replaceAt
      rw [Option.toList_none, List.append_nil]

theorem changeAt_congr {path : List Nat} {root : PlanNode} {f g : PlanNode → PlanNode}
    (h : ∀ node, nodeAt path root = some node → f node = g node) :
    changeAt f path root = changeAt g path root := by
  induction path generalizing root with
  | nil => exact h root rfl
  | cons index path ih =>
    rw [changeAt, changeAt]
    cases hchild : root.children[index]? with
    | none =>
      have hlength := List.getElem?_eq_none_iff.mp hchild
      rw [List.modify_eq_self hlength, List.modify_eq_self hlength]
    | some child =>
      refine congrArg _ (modify_congr hchild (ih fun node hnode => h node ?_))
      rw [nodeAt, hchild]
      exact hnode

theorem changeAt_id (path : List Nat) (root : PlanNode) : changeAt id path root = root := by
  induction path generalizing root with
  | nil => rfl
  | cons index path ih =>
    rw [changeAt]
    cases hchild : root.children[index]? with
    | none => rw [List.modify_eq_self (List.getElem?_eq_none_iff.mp hchild), withChildren_children]
    | some child =>
      rw [modify_split hchild, ih]
      unfold replaceAt
      rw [List.append_assoc]
      show root.withChildren (root.children.take index ++
        child :: root.children.drop (index + 1)) = root
      rw [← eq_take_cons_drop hchild, withChildren_children]

/-! ## Ids behind an edit -/

/-- Beside the ids of one node a tree has the same ids, whatever that node is changed to. -/
theorem ids_changeAt {path : List Nat} {root node : PlanNode} (h : nodeAt path root = some node)
    (f : PlanNode → PlanNode) :
    ∃ rest, root.ids.Perm (node.ids ++ rest) ∧
      (changeAt f path root).ids.Perm ((f node).ids ++ rest) := by
  induction path generalizing root with
  | nil =>
    obtain rfl := Option.some.inj h
    exact ⟨[], by rw [List.append_nil], by rw [List.append_nil]; rfl⟩
  | cons index path ih =>
    obtain ⟨child, hchild, hbelow⟩ := Option.bind_eq_some_iff.mp h
    obtain ⟨rest, hbefore, hafter⟩ := ih hbelow
    cases root with
    | condition => cases hchild
    | group id mode children =>
      have hchild : children[index]? = some child := hchild
      let others := idsOf (children.take index)
      let behind := idsOf (children.drop (index + 1))
      have hperm : ∀ ids inner : List String, ids.Perm (inner ++ rest) →
          (id :: (others ++ (ids ++ behind))).Perm
            (inner ++ (id :: (others ++ (rest ++ behind)))) := by
        intro ids inner hids
        refine List.Perm.trans ?_ List.perm_middle.symm
        refine List.Perm.cons id ?_
        refine ((hids.append_right behind).append_left others).trans ?_
        rw [List.append_assoc]
        exact List.perm_append_comm_assoc others inner (rest ++ behind)
      refine ⟨id :: (others ++ (rest ++ behind)), ?_, ?_⟩
      · show (id :: idsOf children).Perm _
        rw [idsOf_split hchild]
        exact hperm _ _ hbefore
      · show (id :: idsOf (children.modify index (changeAt f path))).Perm _
        rw [modify_split hchild]
        unfold replaceAt
        rw [idsOf_append, idsOf_append, List.append_assoc]
        have honly : idsOf (some (changeAt f path child)).toList =
            (changeAt f path child).ids := List.append_nil _
        rw [honly]
        exact hperm _ _ hafter

theorem ids_asking (node : PlanNode) (field : PlanField) (op : PlanOperator)
    (value value2 : Option PlanValue) : (node.asking field op value value2).ids = node.ids := by
  cases node <;> rfl

theorem idsOf_eraseIdx_sublist (children : List PlanNode) (index : Nat) :
    (idsOf (children.eraseIdx index)).Sublist (idsOf children) := by
  cases hchild : children[index]? with
  | none => rw [List.eraseIdx_of_length_le (List.getElem?_eq_none_iff.mp hchild)]
  | some child =>
    rw [List.eraseIdx_eq_take_drop_succ, idsOf_append, idsOf_split hchild]
    exact (List.sublist_append_right _ _).append_left _

/-- A control keeps the ids of its group, up to the one of a node it adds. -/
theorem Control.ids_means (sequence : Nat) (control : Control) (group : PlanNode) :
    (control.means sequence group).ids.Subperm
      (group.ids ++ (control.added sequence).toList.map PlanNode.id) := by
  cases control with
  | setMatch mode =>
    rw [show (Control.added sequence (.setMatch mode)).toList.map PlanNode.id = [] from rfl,
      List.append_nil]
    cases group <;> exact List.Subperm.refl _
  | addCondition field op value =>
    cases group with
    | condition => exact (List.sublist_append_left _ _).subperm
    | group id mode children =>
      show (id :: idsOf (children ++ [_])).Subperm _
      rw [idsOf_append]
      exact List.Subperm.refl _
  | addGroup =>
    cases group with
    | condition => exact (List.sublist_append_left _ _).subperm
    | group id mode children =>
      show (id :: idsOf (children ++ [_])).Subperm _
      rw [idsOf_append]
      exact List.Subperm.refl _
  | changeCondition index field op value value2 =>
    refine (List.Perm.of_eq ?_).subperm
    show _ = group.ids ++ []
    rw [List.append_nil]
    cases group with
    | condition => rfl
    | group id mode children =>
      show id :: idsOf (children.modify index _) = id :: idsOf children
      cases hchild : children[index]? with
      | none => rw [List.modify_eq_self (List.getElem?_eq_none_iff.mp hchild)]
      | some child =>
        rw [modify_split hchild]
        unfold replaceAt
        rw [idsOf_append, idsOf_append, idsOf_split hchild, List.append_assoc]
        congr 3
        exact (List.append_nil _).trans (ids_asking child field op value value2)
  | remove index =>
    refine List.Sublist.subperm ?_
    show ((group.withChildren (group.children.eraseIdx index)).ids).Sublist (group.ids ++ [])
    rw [List.append_nil]
    cases group with
    | condition => exact List.Sublist.refl _
    | group id mode children => exact (idsOf_eraseIdx_sublist children index).cons_cons id

/-- A control whose node has an id of its own keeps the ids of the tree distinct. -/
theorem nodup_control {path : List Nat} {root : PlanNode} (hnodup : root.ids.Nodup)
    {sequence : Nat} {control : Control}
    (hfresh : ∀ node, control.added sequence = some node → node.id ∉ root.ids) :
    (changeAt (control.means sequence) path root).ids.Nodup := by
  cases hnode : nodeAt path root with
  | none =>
    have hsame : changeAt (control.means sequence) path root = changeAt id path root :=
      changeAt_congr fun node h => nomatch hnode.symm.trans h
    rw [hsame, changeAt_id]
    exact hnodup
  | some node =>
    obtain ⟨rest, hbefore, hafter⟩ := ids_changeAt hnode (control.means sequence)
    obtain ⟨kept, hkept, hsublist⟩ := control.ids_means sequence node
    have hall : (root.ids ++ (control.added sequence).toList.map PlanNode.id).Nodup := by
      refine List.nodup_append.mpr ⟨hnodup, ?_, ?_⟩
      · cases control.added sequence with
        | none => exact List.nodup_nil
        | some added => exact List.nodup_singleton _
      · intro id hid other hother
        cases hadded : control.added sequence with
        | none =>
          rw [hadded] at hother
          cases hother
        | some added =>
          rw [hadded] at hother
          obtain rfl := List.mem_singleton.mp hother
          rintro rfl
          exact hfresh added hadded hid
    have hmoved : (root.ids ++ (control.added sequence).toList.map PlanNode.id).Perm
        ((node.ids ++ (control.added sequence).toList.map PlanNode.id) ++ rest) := by
      refine (hbefore.append_right _).trans ?_
      rw [List.append_assoc, List.append_assoc]
      exact (List.perm_append_comm).append_left node.ids
    have hkeptNodup : (kept ++ rest).Nodup :=
      ((hmoved.nodup_iff).mp hall).sublist (hsublist.append_right rest)
    exact (hafter.trans (hkept.symm.append_right rest)).nodup_iff.mpr hkeptNodup

/-! ## Plans over page loads -/

/-- A counter and a plan that is edited with its ids. -/
structure BuilderPage where
  sequence : Nat
  plan : BuiltQueryPlan

def defaultColumns : PlanSubject → List PlanColumn
  | .block => [⟨"text", .content, none⟩, ⟨"page", .page, none⟩]
  | _ => [⟨"text", .content, none⟩]

def emptyGroup (sequence : Nat) (mode : PlanMatch) : PlanNode :=
  .group (planId "g" (sequence + 1)) mode []

def defaultPlan (sequence : Nat) (subject : PlanSubject) : BuiltQueryPlan :=
  ⟨queryPlanVersion, subject, emptyGroup sequence .all, defaultColumns subject, ⟨100, by decide⟩⟩

/-- The default plan has taken an id before the plan of a tag takes two. -/
def tagPlan (sequence : Nat) (tagId : String) : BuiltQueryPlan :=
  { defaultPlan sequence .block with
    whereClause := .group (planId "g" (sequence + 2)) .all
      [.condition (planId "c" (sequence + 3)) .tag .equals (some (.tag tagId)) none] }

mutual

/-- A node without the filters on fields that a subject does not have. -/
def pruneNode (subject : PlanSubject) : PlanNode → Option PlanNode
  | .condition id field op value value2 =>
    if subject.hasField field then some (.condition id field op value value2) else none
  | .group id mode children => some (.group id mode (pruneNodes subject children))

def pruneNodes (subject : PlanSubject) : List PlanNode → List PlanNode
  | [] => []
  | child :: rest => (pruneNode subject child).toList ++ pruneNodes subject rest

end

/-- `columnKindsFor`, and the subject itself. -/
def keepsColumn : PlanSubject → PlanColumnSource → Bool
  | .block, .parent | .block, .siblingIndex => false
  | subject, source => subject.hasColumn source

def BuiltQueryPlan.retarget (plan : BuiltQueryPlan) (subject : PlanSubject) : BuiltQueryPlan :=
  if subject = plan.subject then plan
  else
    let columns := plan.columns.filter fun column => keepsColumn subject column.source
    { plan with
      subject := subject
      whereClause := (pruneNode subject plan.whereClause).getD plan.whereClause
      columns := if columns.length > 0 then columns else [⟨"text", .content, none⟩] }

/-- What happens to a page that edits a plan. Other plans take ids from the same counter, and
what is shown of the answer leaves the tree as it is. -/
inductive BuilderAction where
  | load
  | elsewhere (taken : Nat)
  | control (path : List Nat) (control : Control)
  | retarget (subject : PlanSubject)
  | output (columns : List PlanColumn) (limit : PlanLimit)

def BuilderPage.step (page : BuilderPage) : BuilderAction → BuilderPage
  | .load => { page with sequence := 0 }
  | .elsewhere taken => { page with sequence := page.sequence + taken }
  | .control path control =>
    let whereClause := through (control.apply page.sequence) path page.plan.whereClause
    ⟨page.sequence + (control.added page.sequence).toList.length,
      { page.plan with whereClause := whereClause }⟩
  | .retarget subject => { page with plan := page.plan.retarget subject }
  | .output columns limit =>
    { page with plan := { page.plan with columns := columns, limit := limit } }

def BuilderPage.run (page : BuilderPage) (actions : List BuilderAction) : BuilderPage :=
  actions.foldl BuilderPage.step page

/-- A page on which a plan has just been made. -/
inductive BuilderPage.Opened : BuilderPage → Prop where
  | ofSubject (sequence : Nat) (subject : PlanSubject) :
      Opened ⟨sequence + 1, defaultPlan sequence subject⟩
  | ofTag (sequence : Nat) (tagId : String) : Opened ⟨sequence + 3, tagPlan sequence tagId⟩

/-- The id that an action takes for a new node is not in the plan. -/
def BuilderPage.Fresh (page : BuilderPage) : BuilderAction → Prop
  | .control _ control =>
    ∀ node, control.added page.sequence = some node → node.id ∉ page.plan.whereClause.ids
  | _ => True

/-- Every id that a run takes is new to the plan at that step. -/
def BuilderPage.FreshAlong : BuilderPage → List BuilderAction → Prop
  | _, [] => True
  | page, action :: rest => page.Fresh action ∧ (page.step action).FreshAlong rest

/-- An edit changes the node that it addresses and nothing else of the tree. -/
structure LocalEdits (root : PlanNode) : Prop where
  distinct : root.ids.Nodup
  replace : ∀ {path parent index child}, nodeAt path root = some parent →
    parent.children[index]? = some child → ∀ next,
      replaceNode child.id next root =
        changeAt (fun node => node.withChildren (replaceAt node.children index next)) path root
  append : ∀ {path id mode children}, nodeAt path root = some (.group id mode children) →
    ∀ node, appendNode id node root =
      changeAt (fun group => group.withChildren (group.children ++ [node])) path root
  view : ∀ path sequence control,
    through (Control.apply sequence control) path root =
      changeAt (Control.means sequence control) path root

theorem LocalEdits.of_nodup {root : PlanNode} (hnodup : root.ids.Nodup) : LocalEdits root where
  distinct := hnodup
  replace hparent hchild next := replaceNode_at hnodup hparent hchild next
  append hgroup node := appendNode_at hnodup hgroup node
  view path sequence control := by
    rw [through_eq hnodup]
    exact changeAt_congr fun node hnode =>
      control.apply_eq_means (nodup_nodeAt hnodup hnode) sequence

/-! ### What each step does to the ids -/

mutual

theorem ids_pruneNode (subject : PlanSubject) : ∀ (node : PlanNode),
    (idsOf (pruneNode subject node).toList).Sublist node.ids
  | .condition id field op value value2 => by
    unfold pruneNode
    split
    · exact List.Sublist.refl _
    · exact List.nil_sublist _
  | .group id mode children => by
    show (idsOf [.group id mode (pruneNodes subject children)]).Sublist _
    rw [idsOf, idsOf, List.append_nil]
    exact (ids_pruneNodes subject children).cons_cons id

theorem ids_pruneNodes (subject : PlanSubject) : ∀ (children : List PlanNode),
    (idsOf (pruneNodes subject children)).Sublist (idsOf children)
  | [] => List.Sublist.refl _
  | child :: rest => by
    rw [pruneNodes, idsOf_append, idsOf]
    exact (ids_pruneNode subject child).append (ids_pruneNodes subject rest)

end

theorem ids_retarget (plan : BuiltQueryPlan) (subject : PlanSubject) :
    ((plan.retarget subject).whereClause.ids).Sublist plan.whereClause.ids := by
  unfold BuiltQueryPlan.retarget
  split
  · exact List.Sublist.refl _
  · show ((pruneNode subject plan.whereClause).getD plan.whereClause).ids.Sublist _
    have hpruned := ids_pruneNode subject plan.whereClause
    cases hnode : pruneNode subject plan.whereClause with
    | none => exact List.Sublist.refl _
    | some node =>
      rw [hnode] at hpruned
      exact (List.append_nil node.ids) ▸ hpruned

theorem planId_ne (sequence other : Nat) : planId "g" sequence ≠ planId "c" other := by
  intro h
  have hlist := congrArg String.toList h
  unfold planId at hlist
  rw [String.toList_append, String.toList_append] at hlist
  exact absurd (List.cons.inj hlist).1 (by decide)

theorem BuilderPage.Opened.nodup {page : BuilderPage} (h : page.Opened) :
    page.plan.whereClause.ids.Nodup := by
  cases h with
  | ofSubject sequence subject => exact List.nodup_singleton _
  | ofTag sequence tagId =>
    refine List.nodup_cons.mpr ⟨fun hmem => ?_, List.nodup_singleton _⟩
    exact planId_ne _ _ (List.mem_singleton.mp hmem)

/-- One step keeps the ids of a plan distinct. -/
theorem BuilderPage.nodup_step {page : BuilderPage} (hnodup : page.plan.whereClause.ids.Nodup)
    {action : BuilderAction} (hfresh : page.Fresh action) :
    (page.step action).plan.whereClause.ids.Nodup := by
  cases action with
  | load => exact hnodup
  | elsewhere taken => exact hnodup
  | control path control =>
    show (through (control.apply page.sequence) path page.plan.whereClause).ids.Nodup
    rw [(LocalEdits.of_nodup hnodup).view path page.sequence control]
    exact nodup_control hnodup hfresh
  | retarget subject => exact hnodup.sublist (ids_retarget page.plan subject)
  | output columns limit => exact hnodup

theorem BuilderPage.nodup_run {page : BuilderPage} (hnodup : page.plan.whereClause.ids.Nodup)
    {actions : List BuilderAction} (hfresh : page.FreshAlong actions) :
    (page.run actions).plan.whereClause.ids.Nodup := by
  induction actions generalizing page with
  | nil => exact hnodup
  | cons action actions ih =>
    obtain ⟨hfirst, hrest⟩ := hfresh
    exact ih (page.nodup_step hnodup hfirst) hrest

/-- Over every run in which no id is taken that the plan already has, edits stay local. -/
theorem edits_local {page : BuilderPage} (hopened : page.Opened) {actions : List BuilderAction}
    (hfresh : page.FreshAlong actions) :
    LocalEdits (page.run actions).plan.whereClause :=
  LocalEdits.of_nodup (page.nodup_run hopened.nodup hfresh)

def addFilter (path : List Nat) : BuilderAction :=
  .control path (.addCondition .content .contains none)

/-- A filter, a load of the page, a filter and a group more, and a filter in that group: no id is
taken twice. -/
theorem edits_local_twice :
    (BuilderPage.run ⟨1, defaultPlan 0 .block⟩ [addFilter [], .load, addFilter [],
      .control [] .addGroup, addFilter [2]]).plan.whereClause.ids =
        [planId "g" 1, planId "c" 2, planId "c" 1, planId "g" 2, planId "c" 3] ∧
    LocalEdits (BuilderPage.run ⟨1, defaultPlan 0 .block⟩ [addFilter [], .load, addFilter [],
      .control [] .addGroup, addFilter [2], .control [] (.remove 0)]).plan.whereClause := by
  refine ⟨by decide +kernel, edits_local (.ofSubject 0 .block)
    ⟨?_, trivial, ?_, ?_, ?_, ?_, trivial⟩⟩ <;> rintro node ⟨⟩ hmem <;>
    exact absurd hmem (by decide +kernel)

/-- A filter, a load of the page and two filters more: the last one takes the id of the
first. -/
theorem reload_repeats_id :
    ¬ ∀ (page : BuilderPage) (actions : List BuilderAction), page.Opened →
      LocalEdits (page.run actions).plan.whereClause := by
  intro h
  have hlocal := h ⟨1, defaultPlan 0 .block⟩ [addFilter [], .load, addFilter [], addFilter []]
    (.ofSubject 0 .block)
  have hids : [planId "g" 1, planId "c" 2, planId "c" 1, planId "c" 2].Nodup := hlocal.distinct
  refine (List.nodup_cons.mp (List.nodup_cons.mp hids).2).1 ?_
  exact List.mem_cons_of_mem _ List.mem_cons_self

end Neoseq.Query
