import Mathlib.Algebra.Order.Ring.Nat
import Mathlib.Algebra.Group.Nat.Even
import PacketTree.Header.Basic

/-!
# Reading what was written

A header is written field by field, each a number of so many bytes or the bytes of an address, and read
at fixed places. What is read at the place of a field is what was written there.

## What is proved

* `word_of_holds`, `byte_of_holds`, `view_of_holds`: what a view holds at a place is read there.
* `Reads.cons`, `Reads.decodes`: steps that each add some fields add them all, one after the other.

## The model

A view `Holds` some bytes at a place if they stand there, whatever follows. A `Reading` is what a
property says: its name with the number or the bytes that it has. A step `Adds` some readings if it
succeeds on every layer and does nothing but add properties that say so.
-/

namespace PacketTree

/-! ### Numbers as bytes -/

/-- The last bytes of a number, the highest first. -/
def bigEndian : ℕ → ℕ → List UInt8
  | 0, _ => []
  | width + 1, n => bigEndian width (n / 256) ++ [UInt8.ofNat n]

@[simp] theorem length_bigEndian (width n : ℕ) : (bigEndian width n).length = width := by
  induction width generalizing n with
  | zero => rfl
  | succ width ih => simp [bigEndian, ih]

theorem number_bigEndian (width n : ℕ) :
    ByteOrder.big.number (bigEndian width n) = n % 256 ^ width := by
  induction width generalizing n with
  | zero => simp [bigEndian, ByteOrder.number, Nat.mod_one]
  | succ width ih =>
    have ih := ih (n / 256)
    rw [ByteOrder.number] at ih ⊢
    rw [bigEndian, List.foldl_append, ih, List.foldl_cons, List.foldl_nil, UInt8.toNat_ofNat',
      pow_succ' 256 width, Nat.mod_mul]
    omega

/-! ### What stands at a place -/

namespace ByteView

variable {v : ByteView} {a : ℕ} {bs cs : List UInt8}

/-- The bytes stand at a place of the view. -/
def Holds (v : ByteView) (a : ℕ) (bs : List UInt8) : Prop := bs <+: v.toList.drop a

theorem holds_append :
    v.Holds a (bs ++ cs) ↔ v.Holds a bs ∧ v.Holds (a + bs.length) cs := by
  simp only [Holds, ← List.drop_drop]
  generalize v.toList.drop a = xs
  constructor
  · rintro ⟨rest, rfl⟩
    exact ⟨⟨cs ++ rest, (List.append_assoc ..).symm⟩, rest, by simp⟩
  · rintro ⟨⟨rest, rfl⟩, h⟩
    rw [List.drop_left] at h
    exact (List.prefix_append_right_inj bs).mpr h

theorem holds_of_eq_append (h : v.toList = bs ++ cs) : v.Holds 0 bs := ⟨cs, h.symm⟩

theorem Holds.le_size (h : v.Holds a bs) (hpos : 0 < bs.length) : a + bs.length ≤ v.size := by
  have hle := h.length_le
  rw [List.length_drop, length_toList] at hle
  omega

theorem Holds.take_drop (h : v.Holds a bs) : (v.toList.take (a + bs.length)).drop a = bs := by
  rw [List.drop_take, Nat.add_sub_cancel_left]
  exact (List.prefix_iff_eq_take.mp h).symm

end ByteView

namespace Header

variable {v : ByteView} {a b n width : ℕ} {bs : List UInt8}

theorem view_of_holds (h : v.Holds a bs) (hpos : 0 < bs.length) (hb : b = a + bs.length) :
    ∃ w, view v a b = .ok w ∧ w.toList = bs := by
  subst hb
  obtain ⟨w, hw, hbytes⟩ := ByteView.exists_slice? (Nat.le_add_right a bs.length) (h.le_size hpos)
  exact ⟨w, by rw [view, hw], hbytes.trans h.take_drop⟩

theorem bytes_of_holds (h : v.Holds a bs) (hpos : 0 < bs.length) (hb : b = a + bs.length) :
    bytes v a b = .ok bs := by
  obtain ⟨w, hw, rfl⟩ := view_of_holds h hpos hb
  rw [bytes, hw]
  rfl

theorem word_of_holds (h : v.Holds a (bigEndian width n)) (hpos : 0 < width)
    (hn : n < 2 ^ (8 * width)) (hb : b = a + width) : word width v a b = .ok n := by
  have hmod : n % 256 ^ width = n := Nat.mod_eq_of_lt (by rwa [pow_mul] at hn)
  rw [word, bytes_of_holds h (by simpa using hpos) (by simpa using hb)]
  simp [number_bigEndian, hmod]

theorem byte_of_holds (h : v.Holds a (bigEndian 1 n)) (hn : n < 256) :
    ∃ x, byte v a = .ok x ∧ x.toNat = n := by
  have hlt : a < v.size := h.le_size Nat.one_pos
  have hget : v.get? a = some (UInt8.ofNat n) := by
    obtain ⟨rest, hrest⟩ := h
    have hfirst : v.toList[a]? = some (UInt8.ofNat n) := by
      rw [← List.head?_drop, ← hrest]
      rfl
    have hs := v.start_le_stop
    have he := v.stop_le_size
    rw [ByteView.get?, if_pos hlt, ← hfirst, ByteView.toList, Array.getElem?_toList,
      Array.getElem?_extract, if_pos]
    rw [ByteView.size] at hlt
    omega
  exact ⟨UInt8.ofNat n, by rw [byte, hget], by rw [UInt8.toNat_ofNat', Nat.mod_eq_of_lt hn]⟩

end Header

/-! ### What properties say -/

/-- A name with the number or the bytes that go with it. -/
structure Reading where
  /-- The name. -/
  id : String
  /-- The number. -/
  number? : Option ℕ := none
  /-- The bytes. -/
  bytes? : Option (List UInt8) := none
deriving DecidableEq, Repr

/-- What a property says. -/
def Property.reading (p : Property) : Reading where
  id := p.id
  number? := p.value.nat?
  bytes? := p.value.bytes?.map ByteView.toList

/-- A property of a number below `2 ^ 64` says that number. -/
theorem Property.reading_ofNat {p : Property} {k n : ℕ} (hp : p.value = .ofNat k) (hk : k = n)
    (hn : n < 2 ^ 64) : p.reading = ⟨p.id, n, none⟩ := by
  subst hk
  rw [reading, hp, Value.ofNat, Value.nat?, UInt64.toNat_ofNat', Nat.mod_eq_of_lt hn]
  rfl

namespace Header

variable {v : ByteView} {a b n width : ℕ} {bs : List UInt8} {fs gs : List Reading} {id : String}
  {k l m : Layer}

/-- A layer that says more than another: some properties, which are without error but for those of
options. -/
structure Extends (fs : List Reading) (l m : Layer) : Prop where
  /-- The new properties stand behind the others. -/
  properties : ∃ ps, m.properties = l.properties ++ ps ∧ ps.map Property.reading = fs ∧
    ∀ p ∈ ps, p.error ≠ "" → p.id = "options"
  /-- The namespace is the same, -/
  ns : m.ns = l.ns
  /-- the confidence, -/
  confidence : m.confidence = l.confidence
  /-- the error -/
  error : m.error = l.error
  /-- and the payload. -/
  payload : m.payload = l.payload

theorem Extends.refl (l : Layer) : Extends [] l l :=
  ⟨⟨[], by simp⟩, rfl, rfl, rfl, rfl⟩

theorem Extends.trans (h : Extends fs k l) (h' : Extends gs l m) : Extends (fs ++ gs) k m := by
  obtain ⟨ps, hps, rfl, hblame⟩ := h.properties
  obtain ⟨qs, hqs, rfl, hblame'⟩ := h'.properties
  refine ⟨⟨ps ++ qs, ?_, List.map_append, ?_⟩, h'.ns.trans h.ns, h'.confidence.trans h.confidence,
    h'.error.trans h.error, h'.payload.trans h.payload⟩
  · rw [hqs, hps, List.append_assoc]
  · intro p hp
    exact (List.mem_append.mp hp).elim (hblame p) (hblame' p)

theorem extends_push (l : Layer) {p : Property} {r : Reading} (hr : p.reading = r)
    (h : p.error ≠ "" → p.id = "options") : Extends [r] l (l.push p) :=
  ⟨⟨[p], rfl, by rw [← hr]; rfl, by simpa using h⟩, rfl, rfl, rfl, rfl⟩

/-- The step succeeds on every layer and does nothing but add properties that say this. -/
def Adds (fs : List Reading) (step : Step) : Prop := ∀ l, ∃ m, step l = .ok m ∧ Extends fs l m

/-- A field that can be read is added. -/
theorem adds_field {r : Result Property} {p : Property} {f : Reading} (hr : r = .ok p)
    (he : p.error = "") (hf : p.reading = f) : Adds [f] (field r) := fun l =>
  ⟨l.push p, by rw [hr]; rfl, extends_push l hf fun hne => absurd he hne⟩

/-- A field that is made of another one. -/
theorem adds_map {α : Type} {x : Result α} {c : α} (hx : x = .ok c) {make : α → Property}
    {f : Reading} (he : (make c).error = "") (hf : (make c).reading = f) :
    Adds [f] (field (x.map make)) :=
  adds_field (by rw [hx]; rfl) he hf

theorem adds_bind {α : Type} {x : Result α} {c : α} (hx : x = .ok c) {make : α → Property}
    {f : Reading} (he : (make c).error = "") (hf : (make c).reading = f) :
    Adds [f] (field do return make (← x)) :=
  adds_field (by rw [hx]; rfl) he hf

/-- Words about a layer are no fields. -/
theorem extends_words (l : Layer) (s : String) (stream : Option String) :
    Extends [] l { l with summary := s, streamId := stream } :=
  ⟨⟨[], by simp⟩, rfl, rfl, rfl, rfl⟩

/-- A step that makes words about a layer of two fields. -/
theorem adds_words {α β : Type} {x : Result α} {y : Result β} {a : α} {b : β} (hx : x = .ok a)
    (hy : y = .ok b) {change : α → β → Layer → Layer}
    (h : ∀ l, ∃ s stream, change a b l = { l with summary := s, streamId := stream }) :
    Adds [] fun l => do return change (← x) (← y) l := by
  intro l
  obtain ⟨s, stream, hchange⟩ := h l
  exact ⟨change a b l, by rw [hx, hy]; rfl, hchange ▸ extends_words l s stream⟩

theorem adds_check {r : Result Unit} (h : r = .ok ()) : Adds [] (check r) := fun l =>
  ⟨l, by rw [check, h]; rfl, .refl l⟩

/-- A number of whole bytes. -/
theorem adds_wordProperty (h : v.Holds a (bigEndian width n)) (hpos : 0 < width) (hwidth : width ≤ 8)
    (hn : n < 2 ^ (8 * width)) (hb : b = a + width) :
    Adds [⟨id, n, none⟩] (field (wordProperty id v a b)) := by
  have hlt : n < 2 ^ 64 := hn.trans_le (Nat.pow_le_pow_right Nat.two_pos (by omega))
  rw [wordProperty, show b - a = width by omega]
  exact adds_map (word_of_holds h hpos hn hb) rfl (Property.reading_ofNat rfl rfl hlt)

/-- A number that is read off a byte. -/
theorem adds_byteProperty (h : v.Holds a (bigEndian 1 n)) (hn : n < 256) {read : ℕ → ℕ} {k : ℕ}
    (hread : read n = k) (hk : k < 2 ^ 64) :
    Adds [⟨id, k, none⟩] (field (byteProperty id v a read)) := by
  obtain ⟨x, hx, rfl⟩ := byte_of_holds h hn
  exact adds_map hx rfl (Property.reading_ofNat rfl hread hk)

/-- An address. -/
theorem adds_addressProperty (h : v.Holds a bs) (hpos : 0 < bs.length) (hb : b = a + bs.length)
    (text : List UInt8 → String) : Adds [⟨id, none, bs⟩] (field (addressProperty id text v a b)) := by
  obtain ⟨w, hw, rfl⟩ := view_of_holds h hpos hb
  exact adds_map hw rfl rfl

/-! ### Whole headers -/

/-- The steps succeed on every layer: they add properties that say this, change the namespace like this
and leave this payload. -/
def Reads (fs : List Reading) (change : Namespace → Namespace) (w : ByteView) (steps : List Step) :
    Prop :=
  ∀ l, ∃ m, run steps l = { m with ns := change l.ns, payload := w } ∧ Extends fs l m

variable {change : Namespace → Namespace} {w : ByteView} {step : Step} {steps : List Step}

/-- The last step says what is carried and which protocol it is. -/
theorem reads_last
    (h : ∀ l, ∃ m, step l = .ok { m with ns := change l.ns, payload := w } ∧ Extends fs l m) :
    Reads fs change w [step] := by
  intro l
  obtain ⟨m, hm, hlm⟩ := h l
  exact ⟨m, by rw [run, hm]; rfl, hlm⟩

/-- **Every step adds to what the steps behind it add.** -/
theorem Reads.cons (h : Reads gs change w steps) (hstep : Adds fs step) :
    Reads (fs ++ gs) change w (step :: steps) := by
  intro l
  obtain ⟨k, hk, hlk⟩ := hstep l
  obtain ⟨m, hm, hkm⟩ := h k
  refine ⟨m, ?_, hlk.trans hkm⟩
  rw [run, hk, ← hlk.ns]
  exact hm

/-- A step that adds a field. -/
theorem Reads.field {f : Reading} (hstep : Adds [f] step) (h : Reads fs change w steps) :
    Reads (f :: fs) change w (step :: steps) :=
  h.cons hstep

/-- A step that adds no field. -/
theorem Reads.skip (hstep : Adds [] step) (h : Reads fs change w steps) :
    Reads fs change w (step :: steps) :=
  h.cons hstep

/-- A layer that was read out of the payload of another one, all fields and without complaint. -/
structure Decodes (parent : Layer) (ns : Namespace) (fs : List Reading) (body : List UInt8)
    (l : Layer) : Prop where
  /-- The namespace. -/
  ns : l.ns = ns
  /-- The properties say these things, in this order. -/
  fields : l.properties.map Property.reading = fs
  /-- The layer carries these bytes, -/
  body : l.payload.toList = body
  /-- which are a part of the bytes that it was read from. -/
  within : l.payload.Within parent.payload
  /-- The layer is without error, -/
  error : l.error = ""
  /-- and so are all properties but for those of options. -/
  errors : ∀ p ∈ l.properties, p.error ≠ "" → p.id = "options"
  /-- There is no doubt. -/
  confidence : l.confidence = .full

theorem Reads.decodes {name : String} {parent : Layer} {body : List UInt8}
    (h : Reads fs change w steps) (hbody : w.toList = body) (hw : w.Within parent.payload) :
    Decodes parent (change (parent.ns.descend name)) fs body (Header.read name steps parent) := by
  obtain ⟨m, hm, hread⟩ := h { ns := parent.ns.descend name, payload := parent.payload.tail }
  obtain ⟨ps, hps, rfl, hblame⟩ := hread.properties
  rw [List.nil_append] at hps
  rw [Header.read, hm]
  exact ⟨rfl, by rw [← hps], hbody, hw, hread.error, hps ▸ hblame, hread.confidence⟩

end Header

end PacketTree
