import Mathlib.Data.List.Basic
import Mathlib.Data.Nat.Basic
import PacketTree.Address
import PacketTree.Proofs.Text.Runs

/-!
# Addresses are known by their texts

The text of an address of version 6 leaves out zeros, and shows some addresses in another form. This
module says by which rules it is made and proves that the address can still be told from it.

## What is proved

* `Text.toDigits_inj`: numbers are known by their digits, in any base up to sixteen.
* `Scanned.longestZeroRun`: the run that is left out is the first of the longest ones.
* `shows_version6`: the text of an address follows the rules.
* `version4_inj`, `version6_inj`: different addresses have different texts.

## The model

A run of zeros `Stands` in a list of groups if all groups of the run are zero. `Shows` has one case for
each form of a text. `readBack` gets the digits of all groups from what a text has between its colons: an
empty piece tells that groups were left out, and their number follows from that of the others.
-/

namespace PacketTree

namespace Text

/-! ### Digits -/

/-- The digits of numbers to any base up to sixteen. -/
def digits : List Char := "0123456789abcdef".toList

variable {b m n : ℕ} {c : Char}

theorem digitChar_mem (h : n < 16) : n.digitChar ∈ digits := by
  have hall : ∀ k : Fin 16, k.val.digitChar ∈ digits := by decide
  exact hall ⟨n, h⟩

theorem digitChar_inj (hm : m < 16) (hn : n < 16) (h : m.digitChar = n.digitChar) : m = n := by
  have hall : ∀ j k : Fin 16, j.val.digitChar = k.val.digitChar → j = k := by decide
  exact congrArg Fin.val (hall ⟨m, hm⟩ ⟨n, hn⟩ h)

section

variable (hb : 1 < b) (hb' : b ≤ 16)

include hb hb'

theorem mem_digits_of_mem_toDigits (h : c ∈ b.toDigits n) : c ∈ digits := by
  induction n using Nat.strongRecOn with
  | ind n ih =>
    rw [Nat.toDigits_eq_if hb] at h
    split at h
    · rw [List.mem_singleton] at h
      exact h ▸ digitChar_mem (by omega)
    · rcases List.mem_append.mp h with h | h
      · exact ih (n / b) (Nat.div_lt_self (by omega) hb) h
      · have hlow : n % b < b := Nat.mod_lt n (by omega)
        rw [List.mem_singleton] at h
        exact h ▸ digitChar_mem (by omega)

/-- Numbers with the same digits are the same. -/
theorem toDigits_inj (h : b.toDigits m = b.toDigits n) : m = n := by
  induction m using Nat.strongRecOn generalizing n with
  | ind m ih =>
    have hsplit : ∀ k, b.toDigits k = (if k < b then [] else b.toDigits (k / b)) ++ [(k % b).digitChar] := by
      intro k
      rw [Nat.toDigits_eq_if hb]
      split
      · next hk => rw [Nat.mod_eq_of_lt hk, List.nil_append]
      · rfl
    rw [hsplit m, hsplit n] at h
    obtain ⟨hhigh, hlow⟩ := List.append_inj' h rfl
    have hmod : m % b = n % b := by
      have hm : m % b < b := Nat.mod_lt m (by omega)
      have hn : n % b < b := Nat.mod_lt n (by omega)
      exact digitChar_inj (by omega) (by omega) (List.singleton_inj.mp hlow)
    by_cases hm : m < b <;> by_cases hn : n < b
    · rwa [Nat.mod_eq_of_lt hm, Nat.mod_eq_of_lt hn] at hmod
    · rw [if_pos hm, if_neg hn] at hhigh
      exact absurd hhigh.symm Nat.toDigits_ne_nil
    · rw [if_neg hm, if_pos hn] at hhigh
      exact absurd hhigh Nat.toDigits_ne_nil
    · rw [if_neg hm, if_neg hn] at hhigh
      have hdiv : m / b = n / b := ih (m / b) (Nat.div_lt_self (by omega) hb) hhigh
      rw [← Nat.div_add_mod m b, hdiv, hmod, Nat.div_add_mod]

end

/-! ### Joined texts -/

variable {xs : List (List Char)}

theorem mem_intercalate {a : Char} (h : a ∈ [c].intercalate xs) : a = c ∨ ∃ x ∈ xs, a ∈ x := by
  induction xs with
  | nil => cases h
  | cons x xs ih =>
    cases xs with
    | nil => exact .inr ⟨x, List.mem_cons_self, by simpa using h⟩
    | cons x' xs =>
      rw [List.intercalate_cons_cons, List.append_assoc, List.mem_append, List.mem_append,
        List.mem_singleton] at h
      rcases h with h | h | h
      · exact .inr ⟨x, List.mem_cons_self, h⟩
      · exact .inl h
      · exact (ih h).imp_right fun ⟨y, hy, ha⟩ => ⟨y, List.mem_cons_of_mem x hy, ha⟩

theorem mem_intercalate_self (h : 1 < xs.length) : c ∈ [c].intercalate xs := by
  match xs, h with
  | x :: y :: rest, _ =>
    rw [List.intercalate_cons_cons]
    simp

/-- What stands before and behind the first separator. -/
theorem append_cons_inj {as bs cs ds : List Char} (has : c ∉ as) (hbs : c ∉ bs)
    (h : as ++ c :: cs = bs ++ c :: ds) : as = bs ∧ cs = ds := by
  induction as generalizing bs with
  | nil =>
    cases bs with
    | nil => exact ⟨rfl, (List.cons.inj h).2⟩
    | cons b bs => exact absurd ((List.cons.inj h).1 ▸ List.mem_cons_self) hbs
  | cons a as ih =>
    cases bs with
    | nil => exact absurd ((List.cons.inj h).1 ▸ List.mem_cons_self) has
    | cons b bs =>
      obtain ⟨rfl, htail⟩ := List.cons.inj h
      obtain ⟨rfl, hrest⟩ := ih (fun hc => has (List.mem_cons_of_mem a hc))
        (fun hc => hbs (List.mem_cons_of_mem a hc)) htail
      exact ⟨rfl, hrest⟩

end Text

namespace Address

open Text

variable {bs cs : List UInt8} {gs hs : List ℕ} {c : Char}

/-! ### Version 4 -/

theorem toList_version4 (bs : List UInt8) : (version4 bs).toList =
    ['.'].intercalate (bs.map fun b => Nat.toDigits 10 b.toNat) := by
  rw [version4, String.toList_intercalate, List.map_map]
  exact congrArg _ (List.map_congr_left fun b _ => Nat.toList_repr)

theorem mem_version4 (h : c ∈ (version4 bs).toList) : c = '.' ∨ c ∈ digits := by
  rw [toList_version4] at h
  refine (mem_intercalate h).imp_right ?_
  rintro ⟨x, hx, hc⟩
  obtain ⟨b, -, rfl⟩ := List.mem_map.mp hx
  exact mem_digits_of_mem_toDigits (by decide) (by decide) hc

theorem point_mem_version4 (h : 1 < bs.length) : '.' ∈ (version4 bs).toList := by
  rw [toList_version4]
  exact mem_intercalate_self (by rwa [List.length_map])

/-- **An address of version 4 is known by its text.** -/
theorem version4_inj (hbs : bs ≠ []) (hcs : cs ≠ []) (h : version4 bs = version4 cs) : bs = cs := by
  have hpoint : ∀ as : List UInt8, ∀ x ∈ as.map fun b => Nat.toDigits 10 b.toNat, '.' ∉ x := by
    intro as x hx hc
    obtain ⟨b, -, rfl⟩ := List.mem_map.mp hx
    exact absurd (mem_digits_of_mem_toDigits (by decide) (by decide) hc) (by decide)
  have hsplit := congrArg (List.splitOn '.') (congrArg String.toList h)
  rw [toList_version4, toList_version4, List.splitOn_intercalate _ (hpoint bs) (by simpa using hbs),
    List.splitOn_intercalate _ (hpoint cs) (by simpa using hcs)] at hsplit
  refine List.map_injective_iff.mpr (fun b c hbc => ?_) hsplit
  exact UInt8.toNat_inj.mp (toDigits_inj (by decide) (by decide) hbc)

/-! ### Groups -/

theorem length_groups : ∀ bs : List UInt8, (groups bs).length = bs.length / 2
  | [] => rfl
  | [_] => by simp [groups]
  | a :: b :: rest => by
    rw [groups, List.length_cons, length_groups rest, List.length_cons, List.length_cons]
    omega

theorem drop_groups : ∀ (n : ℕ) (bs : List UInt8), (groups bs).drop n = groups (bs.drop (2 * n))
  | 0, _ => rfl
  | _ + 1, [] => rfl
  | _ + 1, [_] => rfl
  | n + 1, a :: b :: rest => by
    rw [groups, List.drop_succ_cons, drop_groups n rest]
    rfl

/-- An even number of bytes is known by its groups. -/
theorem groups_inj : ∀ {bs cs : List UInt8}, bs.length % 2 = 0 → bs.length = cs.length →
    groups bs = groups cs → bs = cs
  | [], [], _, _, _ => rfl
  | a :: b :: bs, c :: d :: cs, heven, hlength, h => by
    obtain ⟨hfirst, hrest⟩ := List.cons.inj h
    have hb := b.toNat_lt
    have hd := d.toNat_lt
    have hac : a = c := UInt8.toNat_inj.mp (by omega)
    have hbd : b = d := UInt8.toNat_inj.mp (by omega)
    have heven' : bs.length % 2 = 0 := by
      rw [List.length_cons, List.length_cons] at heven
      omega
    rw [hac, hbd, groups_inj heven' (by simpa using hlength) hrest]
  | [_], _, heven, _, _ => nomatch heven
  | [], _ :: _, _, hlength, _ => nomatch hlength
  | _ :: _ :: _, [], _, hlength, _ => nomatch hlength
  | _ :: _ :: _, [_], _, hlength, _ => nomatch hlength

/-! ### Runs of zeros -/

/-- All groups of the run are zero. -/
def ZeroRun.Stands (r : ZeroRun) (gs : List ℕ) : Prop :=
  ∀ i, r.start ≤ i → i < r.start + r.length → gs[i]? = some 0

variable {r current best next : ZeroRun} {seen : List ℕ} {g : ℕ}

theorem ZeroRun.Stands.le (h : r.Stands gs) (hpos : 0 < r.length) : r.start + r.length ≤ gs.length := by
  have hlast := h (r.start + r.length - 1) (by omega) (by omega)
  obtain ⟨hlt, -⟩ := List.getElem?_eq_some_iff.mp hlast
  omega

/-- A run ends with the last group, or stands before it. -/
theorem ZeroRun.Stands.of_append (h : r.Stands (seen ++ [g])) (hpos : 0 < r.length) :
    r.Stands seen ∨ g = 0 ∧ r.start + r.length = seen.length + 1 := by
  have hle := h.le hpos
  rw [List.length_append, List.length_singleton] at hle
  rcases Nat.lt_or_ge seen.length (r.start + r.length) with hlast | hbefore
  · have hg := h seen.length (by omega) hlast
    rw [List.getElem?_concat_length, Option.some.injEq] at hg
    exact .inr ⟨hg, by omega⟩
  · refine .inl fun i hi hlt => ?_
    rw [← h i hi hlt, List.getElem?_append_left (by omega)]

theorem ZeroRun.Stands.append (h : r.Stands seen) : r.Stands (seen ++ [g]) := by
  intro i hi hlt
  have hzero := h i hi hlt
  obtain ⟨hin, -⟩ := List.getElem?_eq_some_iff.mp hzero
  rw [List.getElem?_append_left hin, hzero]

/-- A list that was looked through: the run that ends with it, and the first of its longest runs. -/
structure Scanned (seen : List ℕ) (current best : ZeroRun) : Prop where
  /-- The groups of the last run are zero, -/
  zeros : ∀ i, seen.length ≤ i + current.length → i < seen.length → seen[i]? = some 0
  /-- and the one before is not. -/
  nonzero : ∀ i, i + current.length + 1 = seen.length → seen[i]? ≠ some 0
  /-- The last run ends with the list. -/
  start : 0 < current.length → current.start + current.length = seen.length
  /-- The groups of the best run are zero. -/
  stands : best.Stands seen
  /-- Any other one is shorter or comes later. -/
  longest : ∀ r : ZeroRun, r.Stands seen → 0 < r.length →
    r.length < best.length ∨ r.length = best.length ∧ best.start ≤ r.start

theorem scanned_nil : Scanned [] ⟨0, 0⟩ ⟨0, 0⟩ where
  zeros := nofun
  nonzero := nofun
  start := nofun
  stands := fun _ _ hlt => absurd hlt (Nat.not_lt_zero _)
  longest := by
    intro r hr hpos
    cases hr r.start le_rfl (Nat.lt_add_of_pos_right hpos)

theorem Scanned.other (h : Scanned seen current best) (hg : g ≠ 0) :
    Scanned (seen ++ [g]) ⟨0, 0⟩ best where
  zeros := fun i hi hlt => absurd hlt (Nat.not_lt.mpr hi)
  nonzero := by
    intro i hi
    obtain rfl : i = seen.length := by simpa using hi
    rw [List.getElem?_concat_length]
    exact fun h => hg (Option.some.inj h)
  start := nofun
  stands := h.stands.append
  longest := by
    intro r hr hpos
    rcases hr.of_append hpos with hr | ⟨hzero, -⟩
    · exact h.longest r hr hpos
    · exact absurd hzero hg

/-- One more zero makes the last run longer, and perhaps the first of the longest. -/
theorem Scanned.zero (h : Scanned seen current best) (hstart : next.start + current.length = seen.length)
    (hlength : next.length = current.length + 1) :
    Scanned (seen ++ [0]) next (if next.length > best.length then next else best) := by
  have hzeros : ∀ i, seen.length + 1 ≤ i + next.length → i < seen.length + 1 →
      (seen ++ [0])[i]? = some 0 := by
    intro i hi hlt
    rcases Nat.lt_or_eq_of_le (Nat.le_of_lt_succ hlt) with hlt | rfl
    · rw [List.getElem?_append_left hlt]
      exact h.zeros i (by omega) hlt
    · exact List.getElem?_concat_length
  have hnonzero : ∀ i, i + next.length = seen.length → seen[i]? ≠ some 0 :=
    fun i hi => h.nonzero i (by omega)
  -- A run that ends with the list is no longer than the last one.
  have hlast : ∀ r : ZeroRun, r.Stands (seen ++ [0]) → r.start + r.length = seen.length + 1 →
      r.length ≤ next.length := by
    intro r hr hend
    by_contra hlong
    have hbefore := hr (seen.length - next.length) (by omega) (by omega)
    rw [List.getElem?_append_left (by omega)] at hbefore
    exact hnonzero (seen.length - next.length) (by omega) hbefore
  constructor
  · simpa using hzeros
  · intro i hi
    rw [List.length_append, List.length_singleton] at hi
    rw [List.getElem?_append_left (by omega)]
    exact hnonzero i (by omega)
  · intro
    rw [List.length_append, List.length_singleton]
    omega
  · split
    · exact fun i hi hlt => hzeros i (by omega) (by omega)
    · exact h.stands.append
  · intro r hr hpos
    rcases hr.of_append hpos with hbefore | ⟨-, hend⟩
    · have hbest := h.longest r hbefore hpos
      split <;> omega
    · have hle := hlast r hr hend
      split
      · omega
      · next hshort =>
        have hbest := h.stands.le (by omega)
        omega

/-- **The first of the longest runs of zeros is found.** -/
theorem Scanned.longestZeroRun (h : Scanned seen current best) (rest : List ℕ) :
    ∃ last, Scanned (seen ++ rest) last (longestZeroRun seen.length current best rest) := by
  induction rest generalizing seen current best with
  | nil =>
    rw [List.append_nil]
    exact ⟨current, h⟩
  | cons g rest ih =>
    have hlength : (seen ++ [g]).length = seen.length + 1 := List.length_append
    rw [Address.longestZeroRun, ← hlength, List.append_cons]
    by_cases hg : g = 0
    · subst hg
      refine ih (h.zero ?_ ?_)
      · rw [if_pos rfl]
        split
        · next hnone => exact congrArg (seen.length + ·) hnone
        · next hsome => exact h.start (by omega)
      · rw [if_pos rfl]
        split
        · next hnone => rw [hnone]
        · rfl
    · rw [if_neg hg]
      exact ih (h.other hg)

/-! ### Version 6 -/

/-- The groups of an address with one of version 4 in its last four bytes start like this. -/
def mappedStart : List ℕ := [0, 0, 0, 0, 0, 0xffff]

/-- The text of an address, by the rules for such texts. -/
inductive Shows (bs : List UInt8) : String → Prop where
  /-- An address of version 4 is shown as one. -/
  | mapped (h : (groups bs).take 6 = mappedStart) : Shows bs ("::ffff:" ++ version4 (bs.drop 12))
  /-- Two or more zeros in a row are left out: the longest run, and the first one of these. -/
  | shortened (r : ZeroRun) (h : (groups bs).take 6 ≠ mappedStart) (hstands : r.Stands (groups bs))
      (hlong : 1 < r.length)
      (hfirst : ∀ s : ZeroRun, s.Stands (groups bs) → 0 < s.length →
        s.length < r.length ∨ s.length = r.length ∧ r.start ≤ s.start) :
      Shows bs (groupText ((groups bs).take r.start) ++ "::" ++
        groupText ((groups bs).drop (r.start + r.length)))
  /-- If there are none, all groups are shown. -/
  | plain (h : (groups bs).take 6 ≠ mappedStart)
      (hshort : ∀ r : ZeroRun, r.Stands (groups bs) → r.length ≤ 1) : Shows bs (groupText (groups bs))

/-- **The text of an address is made by these rules.** -/
theorem shows_version6 (bs : List UInt8) : Shows bs (version6 bs) := by
  obtain ⟨last, hscanned⟩ := scanned_nil.longestZeroRun (groups bs)
  rw [List.nil_append, List.length_nil] at hscanned
  rw [version6]
  dsimp only
  split
  · next h => exact .mapped h
  · next h =>
    split
    · next hlong => exact .shortened _ h hscanned.stands hlong hscanned.longest
    · next hshort =>
      refine .plain h fun r hr => ?_
      by_contra hlong
      have := hscanned.longest r hr (by omega)
      omega

/-- The texts between colons. There is an empty one if there are no groups. -/
def pieces (gs : List ℕ) : List (List Char) := if gs = [] then [[]] else gs.map (Nat.toDigits 16)

theorem pieces_ne_nil (gs : List ℕ) : pieces gs ≠ [] := by
  rw [pieces]
  split
  · exact List.cons_ne_nil _ _
  · next h => simpa using h

theorem mem_digits_of_mem_pieces {x : List Char} (hx : x ∈ pieces gs) (hc : c ∈ x) : c ∈ digits := by
  rw [pieces] at hx
  split at hx
  · rw [List.mem_singleton.mp hx] at hc
    cases hc
  · obtain ⟨g, -, rfl⟩ := List.mem_map.mp hx
    exact mem_digits_of_mem_toDigits (by decide) (by decide) hc

theorem toList_groupText (gs : List ℕ) : (groupText gs).toList = [':'].intercalate (pieces gs) := by
  rw [groupText, String.toList_intercalate, List.map_map, pieces]
  split
  · next h => rw [h]; rfl
  · exact congrArg _ (List.map_congr_left fun g _ => String.toList_ofList)

theorem mem_groupText (h : c ∈ (groupText gs).toList) : c = ':' ∨ c ∈ digits := by
  rw [toList_groupText] at h
  exact (mem_intercalate h).imp_right fun ⟨x, hx, hc⟩ => mem_digits_of_mem_pieces hx hc

theorem point_not_mem_groupText : '.' ∉ (groupText gs).toList := fun h =>
  (mem_groupText h).elim (by decide) (by decide)

/-- What a shortened text has between its colons. -/
theorem splitOn_shortened (gs hs : List ℕ) :
    (groupText gs ++ "::" ++ groupText hs).toList.splitOn ':' = pieces gs ++ [] :: pieces hs := by
  have hjoined : (groupText gs ++ "::" ++ groupText hs).toList =
      [':'].intercalate (pieces gs ++ [] :: pieces hs) := by
    have hempty : [] :: pieces hs = [[]] ++ pieces hs := rfl
    rw [intercalate_append ':' (pieces_ne_nil gs) (List.cons_ne_nil _ _), hempty,
      intercalate_append ':' (List.cons_ne_nil _ _) (pieces_ne_nil hs), ← toList_groupText,
      ← toList_groupText]
    simp
  rw [hjoined, List.splitOn_intercalate]
  · intro x hx hc
    rcases List.mem_append.mp hx with hx | hx
    · exact absurd (mem_digits_of_mem_pieces hx hc) (by decide)
    · rcases List.mem_cons.mp hx with rfl | hx
      · cases hc
      · exact absurd (mem_digits_of_mem_pieces hx hc) (by decide)
  · exact List.append_ne_nil_of_left_ne_nil (pieces_ne_nil gs) _

theorem splitOn_groupText (h : gs ≠ []) :
    (groupText gs).toList.splitOn ':' = gs.map (Nat.toDigits 16) := by
  rw [toList_groupText, List.splitOn_intercalate ':' ?_ (pieces_ne_nil gs), pieces, if_neg h]
  exact fun x hx hc => absurd (mem_digits_of_mem_pieces hx hc) (by decide)

/-- The digits of all groups, where those that were left out are put back. -/
def readBack (ps : List (List Char)) : List (List Char) :=
  if [] ∈ ps then
    let front := ps.takeWhile (· ≠ [])
    let back := (ps.reverse.takeWhile (· ≠ [])).reverse
    front ++ List.replicate (8 - (front.length + back.length)) ['0'] ++ back
  else ps

theorem takeWhile_pieces (gs : List ℕ) (rest : List (List Char)) :
    (pieces gs ++ [] :: rest).takeWhile (· ≠ []) = gs.map (Nat.toDigits 16) := by
  rw [pieces]
  split
  · next h => simp [h]
  · rw [List.takeWhile_append_of_pos]
    · simp
    · intro x hx
      obtain ⟨g, -, rfl⟩ := List.mem_map.mp hx
      exact decide_eq_true Nat.toDigits_ne_nil

theorem reverse_pieces (gs : List ℕ) : (pieces gs).reverse = pieces gs.reverse := by
  simp only [pieces, List.reverse_eq_nil_iff]
  split
  · rfl
  · rw [List.map_reverse]

/-- A run of zeros between the groups before and behind it. -/
theorem ZeroRun.Stands.eq_append (h : r.Stands gs) (hpos : 0 < r.length) :
    gs = gs.take r.start ++ List.replicate r.length 0 ++ gs.drop (r.start + r.length) := by
  have hle := h.le hpos
  have hzeros : (gs.drop r.start).take r.length = List.replicate r.length 0 := by
    refine List.ext_getElem? fun i => ?_
    rw [List.getElem?_take, List.getElem?_drop, List.getElem?_replicate]
    split
    · next hi => exact h (r.start + i) (by omega) (by omega)
    · rfl
  rw [← hzeros, List.append_assoc, ← List.drop_drop, List.take_append_drop, List.take_append_drop]

variable {t : String}

/-- The groups of an address are read back from its text. -/
theorem Shows.readBack_eq (h : Shows bs t) (hlength : bs.length = 16) (hpoint : '.' ∉ t.toList) :
    readBack (t.toList.splitOn ':') = (groups bs).map (Nat.toDigits 16) := by
  have hgroups : (groups bs).length = 8 := by rw [length_groups, hlength]
  cases h with
  | mapped h =>
    refine absurd ?_ hpoint
    rw [String.toList_append]
    exact List.mem_append_right _ (point_mem_version4 (by rw [List.length_drop, hlength]; decide))
  | shortened r h hstands hlong hfirst =>
    have hle := hstands.le (by omega)
    rw [splitOn_shortened, readBack, if_pos (by simp)]
    dsimp only
    have hreversed : (pieces ((groups bs).take r.start) ++
        [] :: pieces ((groups bs).drop (r.start + r.length))).reverse =
        pieces ((groups bs).drop (r.start + r.length)).reverse ++
          [] :: (pieces ((groups bs).take r.start)).reverse := by
      simp [reverse_pieces]
    have hzero : Nat.toDigits 16 0 = ['0'] := by decide
    rw [hreversed, takeWhile_pieces, takeWhile_pieces, List.map_reverse, List.reverse_reverse,
      List.length_map, List.length_map, List.length_take, List.length_drop, hgroups]
    conv_rhs => rw [hstands.eq_append (by omega), List.map_append, List.map_append, List.map_replicate, hzero]
    congr 3
    omega
  | plain h hshort =>
    have hsome : groups bs ≠ [] := by
      rw [← List.length_pos_iff]
      omega
    rw [splitOn_groupText hsome, readBack, if_neg]
    simp [Nat.toDigits_ne_nil]

/-- Only an address with one of version 4 in it has a point in its text. -/
theorem Shows.mapped_of_mem (h : Shows bs t) (hpoint : '.' ∈ t.toList) :
    (groups bs).take 6 = mappedStart ∧ t = "::ffff:" ++ version4 (bs.drop 12) := by
  cases h with
  | mapped h => exact ⟨h, rfl⟩
  | shortened r h hstands hlong hfirst =>
    rw [String.toList_append, String.toList_append, List.mem_append, List.mem_append] at hpoint
    rcases hpoint with (hpoint | hpoint) | hpoint
    · exact absurd hpoint point_not_mem_groupText
    · exact absurd hpoint (by decide)
    · exact absurd hpoint point_not_mem_groupText
  | plain h hshort => exact absurd hpoint point_not_mem_groupText

/-- The signs in the text of an address. -/
def signs : List Char := ':' :: '.' :: digits

theorem Shows.mem_signs (h : Shows bs t) (hc : c ∈ t.toList) : c ∈ signs := by
  have hgroups : ∀ gs, c ∈ (groupText gs).toList → c ∈ signs := by
    intro gs hc
    rcases mem_groupText hc with rfl | hc
    · exact List.mem_cons_self
    · exact List.mem_cons_of_mem _ (List.mem_cons_of_mem _ hc)
  cases h with
  | mapped =>
    have hfront : "::ffff:".toList ⊆ signs := by decide
    rw [String.toList_append, List.mem_append] at hc
    rcases hc with hc | hc
    · exact hfront hc
    · exact List.mem_cons_of_mem _ (List.mem_cons.mpr (mem_version4 hc))
  | shortened r =>
    have hmiddle : "::".toList ⊆ signs := by decide
    rw [String.toList_append, String.toList_append, List.mem_append, List.mem_append] at hc
    rcases hc with (hc | hc) | hc
    · exact hgroups _ hc
    · exact hmiddle hc
    · exact hgroups _ hc
  | plain => exact hgroups _ hc

/-- **An address of version 6 is known by its text.** -/
theorem version6_inj (hbs : bs.length = 16) (hcs : cs.length = 16) (h : version6 bs = version6 cs) :
    bs = cs := by
  refine groups_inj (by omega) (hbs.trans hcs.symm) ?_
  have hshows := shows_version6 bs
  have hshows' := shows_version6 cs
  rw [← h] at hshows'
  generalize version6 bs = t at hshows hshows'
  by_cases hpoint : '.' ∈ t.toList
  · obtain ⟨hfront, ht⟩ := hshows.mapped_of_mem hpoint
    obtain ⟨hfront', ht'⟩ := hshows'.mapped_of_mem hpoint
    have hback : bs.drop 12 = cs.drop 12 := by
      have hsome : ∀ as : List UInt8, as.length = 16 → as.drop 12 ≠ [] := fun as has => by
        rw [← List.length_pos_iff, List.length_drop, has]
        decide
      refine version4_inj (hsome bs hbs) (hsome cs hcs) ?_
      rw [ht] at ht'
      exact (String.append_right_inj _).mp ht'
    rw [← List.take_append_drop 6 (groups bs), ← List.take_append_drop 6 (groups cs), hfront, hfront',
      drop_groups, drop_groups, hback]
  · have hback := hshows.readBack_eq hbs hpoint
    rw [hshows'.readBack_eq hcs hpoint] at hback
    exact (List.map_injective_iff.mpr (fun g k hgk => toDigits_inj (by decide) (by decide) hgk) hback).symm

end Address

end PacketTree
