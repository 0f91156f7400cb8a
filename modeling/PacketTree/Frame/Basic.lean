import PacketTree.Layer.Basic

/-!
# Frames

A frame is one captured packet with the tree of its layers. Layers are numbered in the order in
which they were added, the root first, and refer to each other by number, so that a layer can be
added under any layer that is there.

## The model

`attach?` is the only operation that changes a tree: it adds one layer at the end, under a parent
that is there, and puts it before the first of its siblings that is less sure. A parent is always
older than its children, so ways up follow falling and ways down rising numbers; the functions that
walk the tree follow only such links and so come to an end.
-/

namespace PacketTree

/-- A layer with its place in the tree. -/
structure Frame.Entry where
  /-- The layer. -/
  layer : Layer
  /-- The layer it was read from; the root has none. -/
  parent : Option Nat := none
  /-- The layers read from it, the surest first. -/
  children : List Nat := []
deriving Inhabited

/-- A captured packet with its layers. -/
structure Frame where
  /-- The number of the packet, from one. -/
  index : Nat
  /-- When it was captured. -/
  timestamp : Instant
  /-- Its length on the wire. -/
  length : Nat
  /-- The number of the interface or link type that it came from. -/
  sourceId : Nat
  /-- The layers in the order in which they were added. -/
  entries : Array Frame.Entry
  /-- There is a root. -/
  size_pos : 0 < entries.size := by simp

namespace Frame

/-- The root of every tree. -/
def rootId : Nat := 0

/-- A frame of which only the root is known. -/
def ofRoot (index : Nat) (timestamp : Instant) (length sourceId : Nat) (root : Layer) : Frame where
  index := index
  timestamp := timestamp
  length := length
  sourceId := sourceId
  entries := #[{ layer := root }]

instance : Inhabited Frame := ⟨ofRoot 0 .epoch 0 0 default⟩

/-- The number of layers. -/
def size (f : Frame) : Nat := f.entries.size

/-- The root. -/
def root (f : Frame) : Layer :=
  have := f.size_pos
  f.entries[0].layer

/-- The layer with a number. -/
def layer? (f : Frame) (id : Nat) : Option Layer := f.entries[id]?.map Entry.layer

/-- The layers in the order in which they were added. -/
def layers (f : Frame) : List Layer := f.entries.toList.map Entry.layer

/-- The layer that a layer was read from. -/
def parent? (f : Frame) (id : Nat) : Option Nat := f.entries[id]?.bind Entry.parent

/-- The layers read from a layer, the surest first. -/
def children (f : Frame) (id : Nat) : List Nat := (f.entries[id]?.map Entry.children).getD []

/-! ### Growing -/

/-- A layer is less sure than a given confidence. -/
def lessSure (f : Frame) (c : Confidence) (id : Nat) : Bool :=
  (f.layer? id).any fun l => l.confidence.value.lt c.value

/-- A list of siblings with a new one put before the first that is less sure. -/
def placeChild (f : Frame) (siblings : List Nat) (id : Nat) (c : Confidence) :
    List Nat :=
  siblings.takeWhile (fun s => !f.lessSure c s) ++ id :: siblings.dropWhile (fun s => !f.lessSure c s)

/-- Adds a layer under a parent; `none` if there is no such parent. The new layer's number is the
number of layers before. -/
def attach? (f : Frame) (parent : Nat) (l : Layer) : Option Frame :=
  if parent < f.size then
    some
      { f with
        entries :=
          (f.entries.modify parent fun e =>
            { e with children := f.placeChild e.children f.size l.confidence }).push
            { layer := l, parent := some parent }
        size_pos := by simp }
  else none

/-- A layer is added exactly if the parent is there. -/
theorem attach?_isSome_iff {f : Frame} {parent : Nat} {l : Layer} :
    (f.attach? parent l).isSome ↔ parent < f.size := by
  unfold attach?
  split <;> simp_all

/-- One layer more. -/
theorem size_of_attach?_eq_some {f g : Frame} {parent : Nat} {l : Layer}
    (h : f.attach? parent l = some g) : g.size = f.size + 1 := by
  unfold attach? at h
  split at h
  · cases h
    simp only [size, Array.size_push, Array.size_modify]
  · cases h

/-- The new layer has the next number, and all others stay as they are. -/
theorem layer?_of_attach?_eq_some {f g : Frame} {parent : Nat} {l : Layer}
    (h : f.attach? parent l = some g) (id : Nat) :
    g.layer? id = if id = f.size then some l else f.layer? id := by
  unfold attach? at h
  split at h
  · cases h
    by_cases hid : id = f.size
    · rw [if_pos hid, hid]
      simp only [layer?, size, Array.getElem?_push, Array.size_modify, if_true, Option.map_some]
    · rw [if_neg hid]
      have hs : id ≠ f.entries.size := hid
      simp only [layer?, Array.getElem?_push, Array.size_modify, Array.getElem?_modify]
      rw [if_neg hs]
      split
      · cases f.entries[id]? <;> rfl
      · rfl
  · cases h

/-! ### Walking -/

/-- The layers read from a layer that are younger than it, as all of them are. -/
def below (f : Frame) (id : Nat) : List Nat :=
  (f.children id).filter fun c => id < c ∧ c < f.size

theorem lt_of_mem_below {f : Frame} {id c : Nat} (h : c ∈ f.below id) :
    id < c ∧ c < f.size := by
  simpa [below] using (List.mem_filter.1 h).2

/-- The leaves below a layer, or the layer itself if nothing was read from it, from the surest
child on. -/
def leavesFrom (f : Frame) (id : Nat) : List Nat :=
  if (f.below id).isEmpty then [id]
  else (f.below id).attach.flatMap fun ⟨c, _⟩ => leavesFrom f c
termination_by f.size - id
decreasing_by
  rename_i h
  have := lt_of_mem_below h
  omega

/-- The layers that nothing was read from, from the surest way down on. -/
def leaves (f : Frame) : List Nat := f.leavesFrom rootId

/-- A layer and the layers above it up to the root. -/
def ancestors (f : Frame) (id : Nat) : List Nat :=
  id :: match f.parent? id with
    | some p => if p < id then ancestors f p else []
    | none => []
termination_by id

/-- The first field with a name in a layer or the layers above it. -/
def findProperty? (f : Frame) (id : Nat) (name : String) : Option Property :=
  (f.ancestors id).findSome? fun a => (f.layer? a).bind (·.property? name)

/-- The leaf on the surest way down, which stands for the whole packet. -/
def primaryId (f : Frame) : Nat := f.leaves.headD rootId

/-- The layer that stands for the whole packet. -/
def primary (f : Frame) : Layer := (f.layer? f.primaryId).getD f.root

/-- Something is wrong with the layer that stands for the packet. -/
def hasError (f : Frame) : Bool := f.primary.hasError

/-- The oldest layer whose innermost confirmed protocol has a name. -/
def named? (f : Frame) (name : String) : Option Nat :=
  f.layers.findIdx? fun l => l.ns.primary? = some name

end Frame

end PacketTree
