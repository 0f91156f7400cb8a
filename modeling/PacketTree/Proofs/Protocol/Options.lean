import Mathlib.Data.List.Induction
import PacketTree.Proofs.Header.Boundary
import PacketTree.Proofs.Protocol.Encoding
import PacketTree.Proofs.Protocol.Outcome

/-!
# The options of a segment

Behind the fixed fields of a segment stand options, one behind the other up to the end of the header or to
a mark that ends the list. This module says which bytes are which options and proves that the dissector
reads these and nothing else.

## What is proved

* `option_of_leads`, `exists_leads_of_option`: one option is read exactly where one stands.
* `optionsFrom_of_leaves`: all options are read up to the first place where none stands.
* `HasHeader.exists_fields`: every complete header is the header of some fields.
* `dissect_options`: the layer of a segment with a complete header, its options and its other fields.

## The model

An option `Leads` some bytes if they start with it; options `Leaves` a rest of some bytes if they stand
before it, one behind the other. Nothing is said of the rest, so that the same relation tells of a list
that goes on and of one that ends in bytes that are no option. Where the length of an option is known from
its kind, the byte for the length is not looked at and may be anything.
-/

namespace PacketTree

open Header ByteView

/-! ### Bytes as numbers -/

theorem number_append_singleton (bs : List UInt8) (b : UInt8) :
    ByteOrder.big.number (bs ++ [b]) = ByteOrder.big.number bs * 256 + b.toNat := by
  simp [ByteOrder.number]

theorem number_lt (bs : List UInt8) : ByteOrder.big.number bs < 256 ^ bs.length := by
  induction bs using List.reverseRecOn with
  | nil => exact Nat.one_pos
  | append_singleton bs b ih =>
    have hb := b.toNat_lt
    rw [number_append_singleton, List.length_append, List.length_singleton, pow_succ]
    omega

/-- Bytes are those of their number. -/
theorem bigEndian_number (bs : List UInt8) :
    bigEndian bs.length (ByteOrder.big.number bs) = bs := by
  induction bs using List.reverseRecOn with
  | nil => rfl
  | append_singleton bs b ih =>
    have hb := b.toNat_lt
    have hhigh : (ByteOrder.big.number bs * 256 + b.toNat) / 256 = ByteOrder.big.number bs := by omega
    have hlow : UInt8.ofNat (ByteOrder.big.number bs * 256 + b.toNat) = b := by
      rw [← UInt8.toNat_inj, UInt8.toNat_ofNat']
      omega
    rw [number_append_singleton, List.length_append, List.length_singleton, bigEndian, hhigh, ih, hlow]

/-- Enough bytes start with a number. -/
theorem exists_bits {bs : List UInt8} (width : ℕ) {bits : ℕ} (hbits : bits = 8 * width)
    (h : width ≤ bs.length) :
    ∃ (n : BitVec bits) (rest : List UInt8), bs = bigEndian width n.toNat ++ rest := by
  have hlength : (bs.take width).length = width := List.length_take_of_le h
  have hlt : ByteOrder.big.number (bs.take width) < 2 ^ bits := by
    have := number_lt (bs.take width)
    rwa [hlength, show 256 = 2 ^ 8 from rfl, ← pow_mul, ← hbits] at this
  refine ⟨BitVec.ofNat bits (ByteOrder.big.number (bs.take width)), bs.drop width, ?_⟩
  have hnumber := bigEndian_number (bs.take width)
  rw [hlength] at hnumber
  rw [BitVec.toNat_ofNat, Nat.mod_eq_of_lt hlt, hnumber, List.take_append_drop]

namespace Tcp

/-! ### Options -/

/-- An option, by what it says. -/
inductive HeaderOption where
  /-- Nothing. -/
  | nop
  /-- The greatest size of a segment. -/
  | mss (size : BitVec 16)
  /-- The number of places by which the window is shifted. -/
  | scale (shift : UInt8)
  /-- Lists of blocks may be sent. -/
  | ackPerm
  /-- A list of blocks that have come. -/
  | selAck (blocks : List UInt8)
  /-- Two timestamps, of which the other side sent the second. -/
  | ts (mine echoed : BitVec 32)

namespace HeaderOption

/-- The number of bytes. -/
def length : HeaderOption → ℕ
  | nop => 1
  | mss _ => 4
  | scale _ => 3
  | ackPerm => 2
  | selAck blocks => 2 + blocks.length
  | ts .. => 10

/-- The bytes as they are sent. -/
def bytes : HeaderOption → List UInt8
  | nop => [1]
  | mss size => 2 :: 4 :: bigEndian 2 size.toNat
  | scale shift => [3, 3, shift]
  | ackPerm => [4, 2]
  | selAck blocks => 5 :: UInt8.ofNat (2 + blocks.length) :: blocks
  | ts mine echoed => 8 :: 10 :: (bigEndian 4 mine.toNat ++ bigEndian 4 echoed.toNat)

/-- The property of an option at a place. -/
def property (place : ℕ) : HeaderOption → Property
  | nop => { id := "nop", range := ⟨place, place + 1⟩ }
  | mss size => { id := "mss", value := .ofNat size.toNat, range := ⟨place, place + 4⟩ }
  | scale shift => { id := "scale", value := .ofNat shift.toNat, range := ⟨place, place + 3⟩ }
  | ackPerm => { id := "ackPerm", value := .bool true, range := ⟨place, place + 2⟩ }
  | selAck blocks =>
    { id := "selAck"
      value := .bytes (.ofBytes .nothing blocks)
      range := ⟨place, place + (2 + blocks.length)⟩ }
  | ts mine echoed =>
    { id := "ts"
      value := .string (toString mine.toNat ++ " - " ++ toString echoed.toNat)
      range := ⟨place, place + 10⟩
      children :=
        [{ id := "mt", value := .ofNat mine.toNat, range := ⟨place + 2, place + 6⟩ },
         { id := "et", value := .ofNat echoed.toNat, range := ⟨place + 6, place + 10⟩ }] }

/-- Bytes that start with an option, and the bytes behind it. Where the length is known from the kind,
the byte for it may say anything. -/
inductive Leads : HeaderOption → List UInt8 → List UInt8 → Prop where
  /-- A single byte. -/
  | nop (rest : List UInt8) : Leads .nop (1 :: rest) rest
  /-- Two bytes for the size. -/
  | mss (size : BitVec 16) (length : UInt8) (rest : List UInt8) :
      Leads (.mss size) (2 :: length :: (bigEndian 2 size.toNat ++ rest)) rest
  /-- One byte for the shift. -/
  | scale (shift length : UInt8) (rest : List UInt8) :
      Leads (.scale shift) (3 :: length :: shift :: rest) rest
  /-- Nothing more. -/
  | ackPerm (length : UInt8) (rest : List UInt8) : Leads .ackPerm (4 :: length :: rest) rest
  /-- As many bytes as the length says. -/
  | selAck (blocks : List UInt8) (length : UInt8) (rest : List UInt8)
      (h : length.toNat = 2 + blocks.length) : Leads (.selAck blocks) (5 :: length :: (blocks ++ rest)) rest
  /-- Four bytes for each timestamp. -/
  | ts (mine echoed : BitVec 32) (length : UInt8) (rest : List UInt8) :
      Leads (.ts mine echoed)
        (8 :: length :: (bigEndian 4 mine.toNat ++ (bigEndian 4 echoed.toNat ++ rest))) rest

/-- The options that bytes start with, one behind the other, and the bytes behind the last. -/
inductive Leaves : List UInt8 → List HeaderOption → List UInt8 → Prop where
  /-- No option. -/
  | nil (rest : List UInt8) : Leaves rest [] rest
  /-- An option and those behind it. -/
  | cons {o : HeaderOption} {os : List HeaderOption} {bs next rest : List UInt8} (h : o.Leads bs next)
      (hrest : Leaves next os rest) : Leaves bs (o :: os) rest

/-- The properties of options that stand one behind the other. -/
def layout : ℕ → List HeaderOption → List Property
  | _, [] => []
  | place, o :: os => o.property place :: layout (place + o.length) os

variable {o : HeaderOption} {os : List HeaderOption} {bs next rest : List UInt8} {place : ℕ}

theorem length_pos (o : HeaderOption) : 0 < o.length := by
  cases o <;> simp [length]

@[simp] theorem length_bytes (o : HeaderOption) : o.bytes.length = o.length := by
  cases o <;> simp [bytes, length]
  omega

theorem range_property (o : HeaderOption) (place : ℕ) : (o.property place).range = ⟨place, place + o.length⟩ := by
  cases o <;> rfl

theorem Leads.length_eq (h : o.Leads bs rest) : bs.length = o.length + rest.length := by
  cases h <;> simp [HeaderOption.length] <;> omega

theorem Leaves.length_le (h : Leaves bs os rest) : rest.length ≤ bs.length := by
  induction h with
  | nil rest => exact le_rfl
  | cons hlead _ ih =>
    have := hlead.length_eq
    omega

/-- What is sent starts with the option that was sent. -/
theorem leads_bytes (h : o.length < 256) (rest : List UInt8) : o.Leads (o.bytes ++ rest) rest := by
  cases o with
  | nop => exact .nop rest
  | mss size => exact .mss size 4 rest
  | scale shift => exact .scale shift 3 rest
  | ackPerm => exact .ackPerm 2 rest
  | selAck blocks =>
    refine .selAck blocks _ rest ?_
    rw [UInt8.toNat_ofNat']
    exact Nat.mod_eq_of_lt h
  | ts mine echoed =>
    have := Leads.ts mine echoed 10 rest
    rwa [← List.append_assoc] at this

theorem leaves_bytes (h : ∀ o ∈ os, o.length < 256) (rest : List UInt8) :
    Leaves (os.flatMap bytes ++ rest) os rest := by
  induction os with
  | nil => exact .nil rest
  | cons o os ih =>
    obtain ⟨ho, hos⟩ := List.forall_mem_cons.mp h
    rw [List.flatMap_cons, List.append_assoc]
    exact .cons (leads_bytes ho _) (ih hos)

theorem not_leads_zeros (n : ℕ) : ¬o.Leads (List.replicate n 0) rest := by
  intro h
  generalize hbs : List.replicate n (0 : UInt8) = bs at h
  have hzero : ∀ b ∈ bs, b = 0 := fun b hb => List.eq_of_mem_replicate (hbs ▸ hb)
  cases h <;> exact absurd (hzero _ List.mem_cons_self) (by decide)

/-- Any bytes start with some options, until there is none. -/
theorem exists_leaves (bs : List UInt8) :
    ∃ os rest, Leaves bs os rest ∧ ∀ o next, ¬Leads o rest next := by
  induction hn : bs.length using Nat.strongRecOn generalizing bs with
  | ind n ih =>
    by_cases hlead : ∃ o next, Leads o bs next
    · obtain ⟨o, next, h⟩ := hlead
      have hlt : next.length < n := by
        have := h.length_eq
        have := o.length_pos
        omega
      obtain ⟨os, rest, hleaves, hend⟩ := ih _ hlt next rfl
      exact ⟨o :: os, rest, .cons h hleaves, hend⟩
    · exact ⟨[], bs, .nil bs, fun o next h => hlead ⟨o, next, h⟩⟩

theorem Leads.drop (h : o.Leads bs rest) : bs.drop o.length = rest := by
  cases h with
  | selAck blocks length rest h => simp [HeaderOption.length, Nat.add_comm 2]
  | ts mine echoed => simp [HeaderOption.length, ← List.append_assoc]
  | _ => simp [HeaderOption.length]

end HeaderOption

/-! ### Reading one option -/

variable {v : ByteView} {place stop next count : ℕ} {o : HeaderOption} {os : List HeaderOption}
  {bs rest : List UInt8} {b : UInt8} {p : Property}

/-- The bytes of a header from a place to its end. -/
def block (v : ByteView) (stop place : ℕ) : List UInt8 := (v.toList.take stop).drop place

theorem length_block (h : stop ≤ v.size) (place : ℕ) : (block v stop place).length = stop - place := by
  rw [block, List.length_drop, List.length_take, length_toList, Nat.min_eq_left h]

theorem drop_block (v : ByteView) (stop place k : ℕ) :
    (block v stop place).drop k = block v stop (place + k) := by
  rw [block, List.drop_drop, block]

theorem holds_block (v : ByteView) (stop place : ℕ) : v.Holds place (block v stop place) := by
  rw [block, List.drop_take]
  exact List.take_prefix _ _

theorem holds_cons (h : v.Holds place (b :: bs)) :
    byte v place = .ok b ∧ v.Holds (place + 1) bs := by
  obtain ⟨rest, hrest⟩ := h
  rw [← List.singleton_append, List.append_assoc] at hrest
  refine ⟨byte_eq_ok ?_, rest, ?_⟩
  · rw [← List.head?_drop, ← hrest]
    rfl
  · rw [← List.drop_drop, ← hrest]
    rfl

theorem bounded_eq_ok {length : ℕ} (h : place + length ≤ stop) :
    bounded place length stop = .ok (place + length) :=
  if_neg (Nat.not_lt.mpr h)

/-- **An option that stands at a place is read there.** -/
theorem option_of_leads (h : o.Leads (block v stop place) rest) (hstop : stop ≤ v.size) :
    ∃ p, option v place stop = .ok (some (p, place + o.length)) ∧ p.Same (o.property place) := by
  have hend : place + o.length ≤ stop := by
    have hlength := h.length_eq
    rw [length_block hstop] at hlength
    have := o.length_pos
    omega
  have hbounded := bounded_eq_ok hend
  have hholds := holds_block v stop place
  generalize block v stop place = bs at h hholds
  cases h with
  | nop =>
    obtain ⟨hkind, -⟩ := holds_cons hholds
    refine ⟨_, ?_, .refl _⟩
    rw [HeaderOption.length] at hbounded ⊢
    simp only [option, hkind, hbounded, bind, Except.bind, UInt8.reduceToNat]
    rfl
  | mss size =>
    obtain ⟨hkind, hbehind⟩ := holds_cons hholds
    obtain ⟨-, hbehind⟩ := holds_cons hbehind
    have hsize := word_of_holds (holds_append.mp hbehind).1 Nat.two_pos size.isLt rfl
    refine ⟨_, ?_, .refl _⟩
    rw [HeaderOption.length] at hbounded ⊢
    simp only [option, hkind, hbounded, hsize, bind, Except.bind, UInt8.reduceToNat]
    rfl
  | scale shift =>
    obtain ⟨hkind, hbehind⟩ := holds_cons hholds
    obtain ⟨-, hbehind⟩ := holds_cons hbehind
    obtain ⟨hshift, -⟩ := holds_cons hbehind
    refine ⟨_, ?_, .refl _⟩
    rw [HeaderOption.length] at hbounded ⊢
    simp only [option, hkind, hbounded, hshift, bind, Except.bind, UInt8.reduceToNat]
    rfl
  | ackPerm =>
    obtain ⟨hkind, -⟩ := holds_cons hholds
    refine ⟨_, ?_, .refl _⟩
    rw [HeaderOption.length] at hbounded ⊢
    simp only [option, hkind, hbounded, bind, Except.bind, UInt8.reduceToNat]
    rfl
  | selAck blocks length _ hlength =>
    obtain ⟨hkind, hbehind⟩ := holds_cons hholds
    obtain ⟨hread, hbehind⟩ := holds_cons hbehind
    rw [HeaderOption.length] at hend hbounded ⊢
    obtain ⟨w, hw, hcontent⟩ := view_eq_ok (a := place + 2) (b := place + (2 + blocks.length))
      (by omega) (hend.trans hstop)
    rw [← Nat.add_assoc, (holds_append.mp hbehind).1.take_drop] at hcontent
    have hlong : ¬2 + blocks.length < 2 := by omega
    refine ⟨_, ?_, Property.alike_of_value (fun _ => rfl) (.bytes (hcontent.trans (toList_ofBytes _ _).symm)) _ _ _⟩
    simp only [option, hkind, hread, hlength, if_neg hlong, hbounded, hw, bind, Except.bind,
      UInt8.reduceToNat]
    rfl
  | ts mine echoed =>
    obtain ⟨hkind, hbehind⟩ := holds_cons hholds
    obtain ⟨-, hbehind⟩ := holds_cons hbehind
    obtain ⟨hmine, hbehind⟩ := holds_append.mp hbehind
    rw [length_bigEndian] at hbehind
    have hfirst := word_of_holds hmine (by decide) mine.isLt rfl
    have hsecond := word_of_holds (holds_append.mp hbehind).1 (by decide) echoed.isLt rfl
    refine ⟨_, ?_, .refl _⟩
    rw [HeaderOption.length] at hbounded ⊢
    simp only [option, timestamps, hkind, hbounded, hfirst, hsecond, bind, Except.bind,
      UInt8.reduceToNat]
    rfl

theorem exists_block_cons (hstop : stop ≤ v.size) (h : place < stop) :
    ∃ b rest, block v stop place = b :: rest ∧ byte v place = .ok b := by
  have hpos : 0 < (block v stop place).length := by
    rw [length_block hstop]
    omega
  obtain ⟨b, rest, hblock⟩ := List.exists_cons_of_length_pos hpos
  exact ⟨b, rest, hblock, (holds_cons (hblock ▸ holds_block v stop place)).1⟩

/-- An option that ends before the header does has a byte for its length, and the bytes behind it. -/
theorem exists_cons_of_bounded {α : Type} {n : ℕ} {read : ℕ → Result α} {r : α} {behind : List UInt8}
    (h : (bounded place (n + 2) stop >>= read) = .ok r) (hlength : behind.length + 1 = stop - place) :
    ∃ length rest, behind = length :: rest ∧ n ≤ rest.length := by
  obtain ⟨_, hbounded, -⟩ := exists_of_bind h
  obtain ⟨rfl, hend⟩ := of_bounded_eq_ok hbounded
  obtain ⟨length, rest, rfl⟩ := List.exists_cons_of_length_pos (l := behind) (by omega)
  rw [List.length_cons] at hlength
  exact ⟨length, rest, rfl, by omega⟩

/-- **Nothing else is read as an option.** -/
theorem exists_leads_of_option (hstop : stop ≤ v.size) (hplace : place < stop)
    (h : option v place stop = .ok (some (p, next))) :
    ∃ o rest, HeaderOption.Leads o (block v stop place) rest := by
  obtain ⟨kind, hkind, h⟩ := exists_of_bind h
  obtain ⟨b, behind, hblock, hb⟩ := exists_block_cons hstop hplace
  obtain rfl : kind = b := Except.ok.inj (hkind.symm.trans hb)
  have hlength := length_block hstop place
  rw [hblock, List.length_cons] at hlength
  have hkinds : ∀ n : ℕ, kind.toNat = n → kind = UInt8.ofNat n := by
    rintro n rfl
    exact UInt8.ofNat_toNat.symm
  have hholds := holds_block v stop place
  rw [hblock] at hholds ⊢
  split at h
  case h_1 => cases h
  case h_2 hn =>
    rw [hkinds 1 hn]
    exact ⟨.nop, behind, .nop behind⟩
  case h_8 => cases h
  -- All others have a byte for the length, and end before the header does.
  case h_3 hn =>
    obtain ⟨length, behind, rfl, hfits⟩ := exists_cons_of_bounded (n := 2) h hlength
    obtain ⟨size, rest, rfl⟩ := exists_bits 2 rfl hfits
    rw [hkinds 2 hn]
    exact ⟨.mss size, rest, .mss size length rest⟩
  case h_4 hn =>
    obtain ⟨length, behind, rfl, hfits⟩ := exists_cons_of_bounded (n := 1) h hlength
    obtain ⟨shift, rest, rfl⟩ := List.exists_cons_of_length_pos hfits
    rw [hkinds 3 hn]
    exact ⟨.scale shift, rest, .scale shift length rest⟩
  case h_5 hn =>
    obtain ⟨length, rest, rfl, -⟩ := exists_cons_of_bounded (n := 0) h hlength
    rw [hkinds 4 hn]
    exact ⟨.ackPerm, rest, .ackPerm length rest⟩
  case h_6 hn =>
    obtain ⟨length, hread, h⟩ := exists_of_bind h
    split at h
    · cases h
    · next hlong =>
      obtain ⟨_, hbounded, -⟩ := exists_of_bind h
      obtain ⟨rfl, hend⟩ := of_bounded_eq_ok hbounded
      obtain ⟨length', behind, rfl⟩ := List.exists_cons_of_length_pos (l := behind) (by omega)
      obtain rfl : length = length' :=
        Except.ok.inj (hread.symm.trans (holds_cons (holds_cons hholds).2).1)
      rw [List.length_cons] at hlength
      have hblocks : length.toNat = 2 + (behind.take (length.toNat - 2)).length := by
        rw [List.length_take]
        omega
      rw [hkinds 5 hn, ← List.take_append_drop (length.toNat - 2) behind]
      exact ⟨_, _, .selAck _ length _ hblocks⟩
  case h_7 hn =>
    obtain ⟨length, behind, rfl, hfits⟩ := exists_cons_of_bounded (n := 8) h hlength
    obtain ⟨mine, behind, rfl⟩ := exists_bits 4 rfl (show 4 ≤ behind.length by omega)
    rw [List.length_append, length_bigEndian] at hfits
    obtain ⟨echoed, rest, rfl⟩ := exists_bits 4 rfl (show 4 ≤ behind.length by omega)
    rw [hkinds 8 hn]
    exact ⟨.ts mine echoed, rest, .ts mine echoed length rest⟩

/-- The mark of the end of the list is zero, and nothing else is. -/
theorem option_eq_none_iff (hstop : stop ≤ v.size) (hplace : place < stop) :
    option v place stop = .ok none ↔ (block v stop place).head? = some 0 := by
  obtain ⟨b, rest, hblock, hb⟩ := exists_block_cons hstop hplace
  rw [hblock, List.head?_cons, Option.some.injEq]
  constructor
  · intro h
    obtain ⟨kind, hkind, h⟩ := exists_of_bind h
    obtain rfl : kind = b := Except.ok.inj (hkind.symm.trans hb)
    split at h
    case h_1 hn => exact UInt8.toNat_inj.mp hn
    case h_2 | h_5 =>
      obtain ⟨_, -, h⟩ := exists_of_bind h
      cases h
    case h_3 | h_4 | h_7 =>
      obtain ⟨_, -, h⟩ := exists_of_bind h
      obtain ⟨_, -, h⟩ := exists_of_bind h
      cases h
    case h_6 =>
      obtain ⟨length, -, h⟩ := exists_of_bind h
      split at h
      · cases h
      · obtain ⟨_, -, h⟩ := exists_of_bind h
        obtain ⟨_, -, h⟩ := exists_of_bind h
        cases h
    case h_8 => cases h
  · rintro rfl
    simp only [option, hb, bind, Except.bind, UInt8.reduceToNat]
    rfl

/-! ### Reading all options -/

open HeaderOption (Leaves Leads layout)

/-- **The options that stand in a header are read**, up to where none stands. There is an error unless
the header or the list ends there. -/
theorem optionsFrom_of_leaves (h : Leaves bs os rest) (hend : ∀ o next, ¬Leads o rest next)
    (hstop : stop ≤ v.size) (hbs : block v stop place = bs) (hcount : stop - place ≤ count) :
    List.Forall₂ Property.Same (optionsFrom v stop count place).1 (layout place os) ∧
      ((optionsFrom v stop count place).2 = "" ↔ rest.head?.all (· = 0) = true) := by
  induction h generalizing place count with
  | nil rest =>
    rcases Nat.lt_or_ge place stop with hlt | hge
    · obtain ⟨b, behind, hblock, -⟩ := exists_block_cons hstop hlt
      cases count with
      | zero => omega
      | succ count =>
        rw [optionsFrom, if_pos hlt]
        have hnone := option_eq_none_iff hstop hlt
        rw [← hbs, hblock, List.head?_cons, Option.all_some]
        rw [hblock, List.head?_cons, Option.some.injEq] at hnone
        cases hoption : option v place stop with
        | error e =>
          rw [hoption] at hnone
          have hother : ¬(b = 0) := by
            intro hb
            cases hnone.mpr hb
          exact ⟨.nil, iff_of_false e.message_ne_empty fun hb => hother (of_decide_eq_true hb)⟩
        | ok found =>
          cases found with
          | none => exact ⟨.nil, iff_of_true rfl (decide_eq_true (hnone.mp hoption))⟩
          | some found =>
            obtain ⟨o, next, hlead⟩ := exists_leads_of_option hstop hlt hoption
            exact absurd (hbs ▸ hlead) (hend o next)
    · have hnil : rest = [] := by
        rw [← hbs, ← List.length_eq_zero_iff, length_block hstop]
        omega
      have hnone : optionsFrom v stop count place = ([], "") := by
        cases count with
        | zero => rfl
        | succ count => rw [optionsFrom, if_neg (Nat.not_lt.mpr hge)]
      rw [hnone, hnil]
      exact ⟨.nil, by simp⟩
  | @cons o os bs next rest hlead _ ih =>
    have hlength := hlead.length_eq
    rw [← hbs, length_block hstop] at hlength
    have hpos := o.length_pos
    cases count with
    | zero => omega
    | succ count =>
      rw [← hbs] at hlead
      obtain ⟨p, hoption, hp⟩ := option_of_leads hlead hstop
      have hnext : block v stop (place + o.length) = next := by
        rw [← drop_block, hlead.drop]
      have hfewer : stop - (place + o.length) ≤ count := by omega
      obtain ⟨hrest, herror⟩ := ih hend hnext hfewer
      rw [optionsFrom, if_pos (by omega), hoption]
      exact ⟨.cons hp hrest, herror⟩

/-- Fields that stand one behind the other. -/
def Tiles : ℕ → ℕ → List Property → Prop
  | start, stop, [] => start = stop
  | start, stop, p :: ps => p.range.start = start ∧ start < p.range.stop ∧ Tiles p.range.stop stop ps

theorem HeaderOption.Leaves.tiles {ps : List Property} (h : Leaves bs os rest)
    (hps : List.Forall₂ Property.Same ps (layout place os)) :
    Tiles place (place + (bs.length - rest.length)) ps := by
  induction h generalizing place ps with
  | nil rest =>
    cases hps
    exact (by omega : place = place + (rest.length - rest.length))
  | @cons o os bs next rest hlead hleaves ih =>
    cases hps with
    | @cons p _ ps _ hp hps =>
      have hrange : p.range = ⟨place, place + o.length⟩ := hp.range_eq.trans (o.range_property place)
      have hlength := hlead.length_eq
      have hle := hleaves.length_le
      have hstop : place + (bs.length - rest.length) =
          place + o.length + (next.length - rest.length) := by omega
      rw [Tiles, hrange, hstop]
      exact ⟨rfl, Nat.lt_add_of_pos_right o.length_pos, ih hps⟩

/-! ### Payloads with a complete header -/

/-- The payload starts with a header that ends at a place: as many words as the header says, not fewer
than the fixed fields fill and not more than there are. -/
structure HasHeader (v : ByteView) (stop : ℕ) : Prop where
  /-- The header says so. -/
  words : ∃ b, v.get? 12 = some b ∧ stop = b.toNat / 16 * 4
  /-- It has all its fields, -/
  least : minHeaderLength ≤ stop
  /-- and it is all there. -/
  fits : stop ≤ v.size

/-- The two bytes of length and flags. -/
theorem exists_lengthAndFlags (n : BitVec 16) : ∃ (reserved : BitVec 3) (flags : BitVec 9),
    n.toNat = n.toNat / 0x1000 * 0x1000 + reserved.toNat * 0x200 + flags.toNat := by
  refine ⟨BitVec.ofNat 3 (n.toNat / 0x200), BitVec.ofNat 9 n.toNat, ?_⟩
  rw [BitVec.toNat_ofNat, BitVec.toNat_ofNat]
  omega

/-- Every complete header is one of some fields. -/
theorem HasHeader.exists_fields (h : HasHeader v stop) : ∃ (fields : Fields) (body : List UInt8),
    v.toList = fields.header ++ body ∧ fields.header.length = stop := by
  obtain ⟨b, hb, hwords⟩ := h.words
  have hleast := h.least
  have hfits := h.fits
  rw [get?_eq] at hb
  rw [← length_toList] at hfits
  rw [minHeaderLength] at hleast
  generalize v.toList = bs at hb hfits ⊢
  obtain ⟨src, bs, rfl⟩ := exists_bits 2 rfl (show 2 ≤ bs.length by omega)
  rw [List.length_append, length_bigEndian] at hfits
  obtain ⟨dst, bs, rfl⟩ := exists_bits 2 rfl (show 2 ≤ bs.length by omega)
  rw [List.length_append, length_bigEndian] at hfits
  obtain ⟨seq, bs, rfl⟩ := exists_bits 4 rfl (show 4 ≤ bs.length by omega)
  rw [List.length_append, length_bigEndian] at hfits
  obtain ⟨ack, bs, rfl⟩ := exists_bits 4 rfl (show 4 ≤ bs.length by omega)
  rw [List.length_append, length_bigEndian] at hfits
  obtain ⟨mixed, bs, rfl⟩ := exists_bits 2 rfl (show 2 ≤ bs.length by omega)
  rw [List.length_append, length_bigEndian] at hfits
  obtain ⟨window, bs, rfl⟩ := exists_bits 2 rfl (show 2 ≤ bs.length by omega)
  rw [List.length_append, length_bigEndian] at hfits
  obtain ⟨checksum, bs, rfl⟩ := exists_bits 2 rfl (show 2 ≤ bs.length by omega)
  rw [List.length_append, length_bigEndian] at hfits
  obtain ⟨urgent, bs, rfl⟩ := exists_bits 2 rfl (show 2 ≤ bs.length by omega)
  rw [List.length_append, length_bigEndian] at hfits
  obtain ⟨reserved, flags, hmixed⟩ := exists_lengthAndFlags mixed
  have hlt := mixed.isLt
  have hbyte : b.toNat = mixed.toNat / 256 := by
    simp only [bigEndian, List.nil_append, List.cons_append, List.getElem?_cons_succ,
      List.getElem?_cons_zero, Option.some.injEq] at hb
    rw [← hb, UInt8.toNat_ofNat']
    omega
  let optionWords : Fin 11 := ⟨(stop - 20) / 4, by omega⟩
  let fields : Fields :=
    { src, dst, seq, ack, reserved, flags, window, checksum, urgent, optionWords
      options := ⟨(bs.take (stop - 20)).toArray, by simp [optionWords]; omega⟩ }
  have hwords' : fields.words = mixed.toNat / 0x1000 := by
    simp only [Fields.words, fields, optionWords]
    omega
  refine ⟨fields, bs.drop (stop - 20), ?_, ?_⟩
  · rw [Fields.header, hwords', ← hmixed]
    simp [fields]
  · rw [Fields.length_header, hwords']
    omega

/-! ### All that a header says -/

/-- The layer of a segment with a complete header: what the fixed fields made of it, the options, and
all that follows. -/
theorem dissect_of_hasHeader (parent : Layer) (h : HasHeader parent.payload stop) :
    dissect parent =
      { (run ((steps parent).take 10)
          { ns := parent.ns.descend "tcp", payload := parent.payload.tail }).push
            (options parent.payload stop) with
        payload := parent.payload.clamped stop parent.payload.size } := by
  obtain ⟨fields, body, hbytes, -⟩ := h.exists_fields
  have herror := (decodes_dissect fields hbytes).error
  obtain ⟨b, hb, rfl⟩ := h.words
  have hwords : headerWords parent.payload = .ok (b.toNat / 16) := by
    rw [headerWords, byte, hb]
    rfl
  have hcheck : checkLength parent.payload = .ok () := by
    simp only [checkLength, hwords, bind, Except.bind, if_neg (Nat.not_lt.mpr h.least), require,
      if_neg (Nat.not_lt.mpr h.fits)]
  have hparts : dissect parent = run ((steps parent).take 10 ++
      [check (checkLength parent.payload), readOptions parent.payload, carry parent.payload])
        { ns := parent.ns.descend "tcp", payload := parent.payload.tail } := rfl
  rw [hparts] at herror ⊢
  rw [run_append herror]
  generalize run (List.take 10 _) _ = l
  simp only [run, check, hcheck, readOptions, carry, hwords, bind, Except.bind, Except.map]
  rfl

theorem property?_options {fields : Fields} {body : List UInt8} {parent : Layer}
    (h : HasHeader parent.payload stop)
    (hdecodes : Decodes parent (parent.ns.descend "tcp") fields.readings body (dissect parent)) :
    (dissect parent).property? "options" = some (options parent.payload stop) := by
  have hids := congrArg (List.map Reading.id) hdecodes.fields
  rw [dissect_of_hasHeader parent h] at hids ⊢
  generalize run (List.take 10 _) _ = l at hids ⊢
  have hfirst : l.properties.map Property.id = (fields.readings.map Reading.id).dropLast := by
    rw [← hids, List.map_map, Layer.push, List.map_append, List.map_singleton, List.dropLast_concat]
    rfl
  have hnone : l.properties.find? (·.id = "options") = none := by
    refine List.find?_eq_none.mpr fun p hp heq => ?_
    have hmem := List.mem_map_of_mem (f := Property.id) hp
    rw [hfirst, of_decide_eq_true heq] at hmem
    simp [Fields.readings] at hmem
  rw [Layer.property?, Layer.push, List.find?_append, hnone]
  rfl

/-- **The options of a segment are parsed exactly.** Every complete header is read, whatever its options
are, and the property of the options has a part for each of them in order, from the twentieth byte on
without a gap, up to where no option stands. It has an error unless the header or the list ends there;
nothing else has. If options were sent, and zeros to fill up the header, just these come back. -/
theorem dissect_options (parent : Layer) (h : HasHeader parent.payload stop) :
    let area := block parent.payload stop minHeaderLength
    ∃ (fields : Fields) (body : List UInt8) (p : Property),
      parent.payload.toList = fields.header ++ body ∧ fields.header.length = stop ∧
      Decodes parent (parent.ns.descend "tcp") fields.readings body (dissect parent) ∧
      (dissect parent).property? "options" = some p ∧ p.range = ⟨minHeaderLength, stop⟩ ∧
      (∃ os rest, Leaves area os rest ∧ (∀ o next, ¬Leads o rest next) ∧
        List.Forall₂ Property.Same p.children (layout minHeaderLength os) ∧
        Tiles minHeaderLength (stop - rest.length) p.children ∧
        (p.error = "" ↔ rest.head?.all (· = 0) = true)) ∧
      ∀ os n, area = os.flatMap HeaderOption.bytes ++ List.replicate n 0 →
        List.Forall₂ Property.Same p.children (layout minHeaderLength os) ∧ p.error = "" := by
  intro area
  obtain ⟨fields, body, hbytes, rfl⟩ := h.exists_fields
  have hlength : area.length = fields.header.length - minHeaderLength := length_block h.fits _
  have hdecodes := decodes_dissect fields hbytes
  refine ⟨fields, body, _, hbytes, rfl, hdecodes, property?_options h hdecodes, rfl, ?_,
    fun os n hos => ?_⟩
  · obtain ⟨os, rest, hleaves, hend⟩ := HeaderOption.exists_leaves area
    obtain ⟨hsame, herror⟩ := optionsFrom_of_leaves hleaves hend h.fits rfl le_rfl
    have htiles := hleaves.tiles hsame
    have hle := hleaves.length_le
    have hleast := h.least
    have hstop : minHeaderLength + (area.length - rest.length) =
        fields.header.length - rest.length := by omega
    exact ⟨os, rest, hleaves, hend, hsame, hstop ▸ htiles, herror⟩
  · have hshort : ∀ o ∈ os, o.length < 256 := by
      intro o ho
      have hle := (List.sublist_flatten_of_mem (List.mem_map_of_mem (f := HeaderOption.bytes) ho)).length_le
      rw [← List.flatMap_def, o.length_bytes] at hle
      have hwords := fields.optionWords.isLt
      have hall := congrArg List.length hos
      rw [hlength, fields.length_header, List.length_append, Fields.words, minHeaderLength] at hall
      omega
    have hleaves := HeaderOption.leaves_bytes hshort (List.replicate n 0)
    rw [← hos] at hleaves
    obtain ⟨hsame, herror⟩ := optionsFrom_of_leaves hleaves
      (fun o next => HeaderOption.not_leads_zeros n) h.fits rfl le_rfl
    refine ⟨hsame, herror.mpr ?_⟩
    cases n <;> simp [List.replicate_succ]

/-- The header of a first segment with seven options, two of them to fill a word, and one byte. -/
theorem dissect_options_syn :
    let segment : List UInt8 :=
      [0, 80, 4, 1, 0, 0, 0, 7, 0, 0, 0, 0, 0xB0, 2, 0, 100, 0, 0, 0, 0, 2, 4, 5, 180, 1, 3, 3, 7, 4, 2, 1, 1,
        8, 10, 0, 0, 0, 1, 0, 0, 0, 2, 0, 0, 9]
    let parent : Layer := { ns := ⟨[.tentative "tcp"]⟩, payload := .ofBytes (.packet 1) segment }
    let os : List HeaderOption := [.mss 1460, .nop, .scale 7, .ackPerm, .nop, .nop, .ts 1 2]
    HasHeader parent.payload 44 ∧
      ∃ p, (dissect parent).property? "options" = some p ∧ p.error = "" ∧
        List.Forall₂ Property.Same p.children (layout minHeaderLength os) := by
  intro segment parent os
  have hheader : HasHeader parent.payload 44 := ⟨⟨0xB0, by decide, by decide⟩, by decide, by decide⟩
  obtain ⟨_, _, p, -, -, -, hp, -, -, hback⟩ := dissect_options parent hheader
  obtain ⟨hchildren, herror⟩ := hback os 2 (by decide)
  exact ⟨hheader, p, hp, herror, hchildren⟩

end Tcp

end PacketTree
