import PacketTree.Bytes.View
import PacketTree.Capture.Error

/-!
# Reading through a window

Capture files are read through a window of fixed size. The window holds the next bytes of the file
that are not yet used; it is filled up only when what it holds does not suffice for the next record,
and a record that could not fit into it is refused as soon as that is known.

## The model

`rest` is the part of the file that is not used yet, and `held` the number of its first bytes that
are in the window. A scanner looks at the window alone. It finds a record there, or finds a problem,
or says how many bytes are missing to go on.
-/

namespace PacketTree

/-- What a scanner makes of a window. -/
inductive Scan (α : Type) where
  /-- The window starts with this, and it takes so many bytes. -/
  | found (x : α) (size : Nat)
  /-- At least so many bytes are missing. -/
  | short (missing : Nat)
  /-- What the window starts with does not follow the format. -/
  | bad (p : FormatProblem)

/-- A file that is being read. -/
structure Window where
  /-- What is not used yet. -/
  rest : ByteView
  /-- The number of bytes in the window. -/
  held : Nat

/-- What comes next in a file. -/
inductive Window.Next (α : Type) where
  /-- This comes next. -/
  | found (x : α) (w : Window)
  /-- The file ends here. -/
  | finished
  /-- The file cannot be read further. -/
  | failed (p : FormatProblem)

namespace Window

variable {α : Type}

/-- The number of bytes that fit into the window. -/
def capacity : Nat := 65536

/-- A file of which nothing is used. -/
def ofView (file : ByteView) : Window := ⟨file, min capacity file.size⟩

/-- The bytes in the window. -/
def view (w : Window) : ByteView := w.rest.clamped 0 w.held

/-- The window filled up. -/
def fill (w : Window) : Window := { w with held := min capacity w.rest.size }

/-- The window behind what was used of it. -/
def advance (w : Window) (size : Nat) : Window := ⟨w.rest.drop size, w.held - size⟩

/-- What comes next when the window cannot be filled any further. -/
def last (scan : ByteView → Scan α) (w : Window) : Next α :=
  match scan w.view with
  | .found x size => .found x (w.advance size)
  | .bad p => .failed p
  | .short missing =>
    if capacity ≤ w.held + missing then .failed .tooLarge
    else if w.held = 0 then .finished
    else .failed .endsEarly

/-- What comes next. -/
def next (scan : ByteView → Scan α) (w : Window) : Next α :=
  match scan w.view with
  | .found x size => .found x (w.advance size)
  | .bad p => .failed p
  | .short missing =>
    if capacity ≤ w.held + missing then .failed .tooLarge else last scan w.fill

end Window

end PacketTree
