import MarkupPath.Proofs.Nesting.Balance
import MarkupPath.Proofs.Tree.Header

/-!
# Trees and their tags

A node of a tree is a text or an element with its header and its children. The
text of a node has exactly the tags of the elements in it, and these are
balanced: they leave open what was open, and of all start tags among them only
those of the outermost elements are met under the element that was innermost
before.
-/

namespace MarkupPath.Tree

/-- A node of a tree. -/
inductive Node
  /-- A text in which no tag can begin. -/
  | text (content : List Char) (tagless : '<' ∉ content)
  | element (header : Header) (children : List Node)

namespace Node

/-- What holds of a node if it holds of its children holds of every node. -/
@[elab_as_elim]
theorem induct {motive : Node → Prop}
    (text : ∀ content tagless, motive (.text content tagless))
    (element : ∀ header children, (∀ child ∈ children, motive child) →
      motive (.element header children)) (node : Node) : motive node := by
  refine @Node.rec motive (fun children => ∀ child ∈ children, motive child) text element ?_ ?_
    node
  · intro child member
    exact nomatch member
  · intro first rest ofFirst ofRest child member
    rcases List.mem_cons.mp member with rfl | member
    · exact ofFirst
    · exact ofRest child member

mutual

/-- The text of a node. -/
def write : Node → List Char
  | .text content _ => content
  | .element header children =>
      if children.isEmpty then header.startText true
      else header.startText false ++ (writeAll children ++ header.endText)

/-- The text of nodes that follow each other. -/
def writeAll : List Node → List Char
  | [] => []
  | node :: rest => node.write ++ writeAll rest

end

mutual

/-- The tags of a node's text, from a position on. -/
def tags (position : Position) : Node → List Tag
  | .text _ _ => []
  | .element header children =>
      if children.isEmpty then [header.startTag true position]
      else
        header.startTag false position ::
          (tagsOfAll (position.advanceOver (header.startText false)) children ++
            [header.endTag (position.advanceOver (header.startText false ++ writeAll children))])

/-- The tags of the text of nodes that follow each other. -/
def tagsOfAll (position : Position) : List Node → List Tag
  | [] => []
  | node :: rest => node.tags position ++ tagsOfAll (position.advanceOver node.write) rest

end

@[simp]
theorem writeAll_append (nodes more : List Node) :
    writeAll (nodes ++ more) = writeAll nodes ++ writeAll more := by
  induction nodes with
  | nil => simp [writeAll]
  | cons node nodes ih => simp [writeAll, ih]

theorem write_of_children (header : Header) {children : List Node} (some : children ≠ []) :
    (element header children).write =
      header.startText false ++ (writeAll children ++ header.endText) := by
  rw [write, if_neg (by simpa using some)]

theorem tags_of_children (position : Position) (header : Header) {children : List Node}
    (some : children ≠ []) :
    (element header children).tags position =
      header.startTag false position ::
        (tagsOfAll (position.advanceOver (header.startText false)) children ++
          [header.endTag (position.advanceOver (header.startText false ++ writeAll children))]) := by
  rw [tags, if_neg (by simpa using some)]

theorem exists_write_element (header : Header) (children : List Node) :
    ∃ rest, (element header children).write = header.startText children.isEmpty ++ rest := by
  by_cases childless : children = []
  · subst childless
    exact ⟨[], by simp [write]⟩
  · refine ⟨writeAll children ++ header.endText, ?_⟩
    rw [write_of_children header childless, List.isEmpty_eq_false_iff.mpr childless]

theorem scanAt_writeAll_of {nodes : List Node}
    (each : ∀ node ∈ nodes, ∀ position rest, Tag.scanAt position (node.write ++ rest) =
      node.tags position ++ Tag.scanAt (position.advanceOver node.write) rest)
    (position : Position) (rest : List Char) :
    Tag.scanAt position (writeAll nodes ++ rest) =
      tagsOfAll position nodes ++ Tag.scanAt (position.advanceOver (writeAll nodes)) rest := by
  induction nodes generalizing position with
  | nil => rfl
  | cons node nodes ih =>
      have ofRest := ih fun other member => each other (List.mem_cons_of_mem _ member)
      rw [writeAll, tagsOfAll, List.append_assoc, each node List.mem_cons_self, ofRest,
        List.append_assoc, Position.advanceOver_append]

theorem scanAt_write (node : Node) (position : Position) (rest : List Char) :
    Tag.scanAt position (node.write ++ rest) =
      node.tags position ++ Tag.scanAt (position.advanceOver node.write) rest := by
  induction node using induct generalizing position rest with
  | text content tagless => exact Tag.scanAt_tagless tagless position rest
  | element header children ih =>
      by_cases childless : children = []
      · subst childless
        exact header.scanAt_startText true position rest
      · have inside := scanAt_writeAll_of fun child member position rest =>
          ih child member position rest
        rw [write_of_children header childless, tags_of_children position header childless]
        rw [List.append_assoc, List.append_assoc, header.scanAt_startText, inside,
          header.scanAt_endText]
        simp

theorem scanAt_writeAll (nodes : List Node) (position : Position) (rest : List Char) :
    Tag.scanAt position (writeAll nodes ++ rest) =
      tagsOfAll position nodes ++ Tag.scanAt (position.advanceOver (writeAll nodes)) rest :=
  scanAt_writeAll_of (fun node _ => node.scanAt_write) position rest

/-- The node is an element of this name. -/
def isNamed (name : String) : Node → Bool
  | .text _ _ => false
  | .element header _ => String.ofList header.name = name

/-- The node is a text. -/
def isText : Node → Bool
  | .text _ _ => true
  | .element _ _ => false

theorem tagsOfAll_of_isText {nodes : List Node} (texts : ∀ node ∈ nodes, node.isText = true)
    (position : Position) : tagsOfAll position nodes = [] := by
  induction nodes generalizing position with
  | nil => rfl
  | cons node nodes ih =>
      have ofRest := ih (fun other member => texts other (List.mem_cons_of_mem _ member))
      have first := texts node List.mem_cons_self
      cases node with
      | text content tagless => rw [tagsOfAll, tags, ofRest, List.append_nil]
      | element header children => exact nomatch first

theorem balanced_tagsOfAll_of {nodes : List Node}
    (each : ∀ node ∈ nodes, ∀ position, Occurrence.Balanced (node.tags position)
      fun name => if node.isNamed name then 1 else 0) (position : Position) :
    Occurrence.Balanced (tagsOfAll position nodes) fun name => nodes.countP (·.isNamed name) := by
  induction nodes generalizing position with
  | nil => exact Occurrence.Balanced.nil
  | cons node nodes ih =>
      have ofRest := ih (fun other member => each other (List.mem_cons_of_mem _ member))
        (position.advanceOver node.write)
      have whole := (each node List.mem_cons_self position).append ofRest
      simpa only [tagsOfAll, List.countP_cons, Nat.add_comm] using whole

/-- The tags of a node are balanced, and for the element around them they are one child. -/
theorem balanced_tags (node : Node) (position : Position) :
    Occurrence.Balanced (node.tags position) fun name => if node.isNamed name then 1 else 0 := by
  induction node using induct generalizing position with
  | text content tagless => exact Occurrence.Balanced.nil
  | element header children ih =>
      simp only [isNamed, decide_eq_true_eq]
      by_cases childless : children = []
      · subst childless
        exact Occurrence.Balanced.selfClosing (header.kind_startTag true position)
      · rw [tags_of_children position header childless]
        have inside := balanced_tagsOfAll_of fun child member position => ih child member position
        exact (inside _).element (header.kind_startTag false position) rfl rfl

theorem balanced_tagsOfAll (nodes : List Node) (position : Position) :
    Occurrence.Balanced (tagsOfAll position nodes) fun name => nodes.countP (·.isNamed name) :=
  balanced_tagsOfAll_of (fun node _ => node.balanced_tags) position

end Node

end MarkupPath.Tree
