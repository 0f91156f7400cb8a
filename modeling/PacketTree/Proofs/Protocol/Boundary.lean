import PacketTree.Proofs.Protocol.Options

/-!
# What stands behind the header of a segment

The options of a segment have to be found within the header, though the payload has bytes behind it. This
module compares the layers of two segments that start with the same header and go on in any way.

## What is proved

* `option_alike`, `optionsFrom_alike`: options are read from the bytes of the header alone.
* `dissect_agree`: what stands behind the header makes no difference to the layer.

## The model

All kinds of options but one compare their length with the end of the header before anything is read. For
a list of blocks the length is read first, and the mark may be the last byte of the header. The list
cannot be read then whatever the next byte is, but the byte gets into the words of the error. So what is
said of options is said for any relation of words, in which all errors have to belong together where
options may end in such a mark.
-/

namespace PacketTree.Tcp

open Header ByteView HeaderOption

variable {v w : ByteView} {place stop count : ℕ} {words : String → String → Prop}

/-! ### Options -/

/-- Two readings of an option that found the same. -/
abbrev SameFound (words : String → String → Prop) :
    Option (Property × ℕ) → Option (Property × ℕ) → Prop :=
  Option.Rel fun a b => a.1.Alike words b.1 ∧ a.2 = b.2

theorem alike_bareOption (hwords : ∀ e, words e e) {x y : Value} (h : x.Matches y) (id : String)
    (place next : ℕ) : SameFound words (some (bareOption id x place next, next))
      (some (bareOption id y place next, next)) :=
  .some ⟨Property.alike_of_value hwords h id ⟨place, next⟩ "", rfl⟩

/-- A mark that is not the last byte of the header has its length in the header. -/
theorem succ_lt_of_block_ne {kind : UInt8} (h : block v stop place ≠ [5]) (hstop : stop ≤ v.size)
    (hplace : place < stop) (hkind : byte v place = .ok kind) (hfive : kind.toNat = 5) :
    place + 1 < stop := by
  obtain ⟨b, rest, hblock, hb⟩ := exists_block_cons hstop hplace
  obtain rfl : kind = b := Except.ok.inj (hkind.symm.trans hb)
  obtain rfl : kind = 5 := UInt8.toNat_inj.mp hfive
  have hlength := length_block hstop place
  rw [hblock] at h hlength
  cases rest with
  | nil => exact absurd rfl h
  | cons c rest =>
    simp only [List.length_cons] at hlength
    omega

/-- A mark that is the last byte of the header is no option. -/
theorem exists_error_of_block_eq (h : block v stop place = [5]) (hstop : stop ≤ v.size)
    (hplace : place < stop) : ∃ e, option v place stop = .error e := by
  rcases hoption : option v place stop with e | _ | ⟨p, next⟩
  · exact ⟨e, rfl⟩
  · have hend := (option_eq_none_iff hstop hplace).mp hoption
    rw [h] at hend
    exact absurd (Option.some.inj hend) (by decide)
  · obtain ⟨o, rest, hlead⟩ := exists_leads_of_option hstop hplace hoption
    rw [h] at hlead
    cases hlead

/-- The end of an option, which both have in common. -/
theorem alike_bounded (hwords : ∀ e, words e e) (place length stop : ℕ) :
    Alike words (fun next next' => next = next' ∧ next = place + length ∧ place + length ≤ stop)
      (bounded place length stop) (bounded place length stop) := by
  cases hbounded : bounded place length stop with
  | error e => exact .error (hwords _)
  | ok next =>
    obtain ⟨rfl, hstop⟩ := of_bounded_eq_ok hbounded
    exact .ok ⟨rfl, rfl, hstop⟩

/-- **An option is read alike** from the same header. Where it is the bare mark of a list of blocks the
words of the errors may be any. -/
theorem option_alike (hwords : ∀ e, words e e) (h : Agree stop v w) (hplace : place < stop)
    (hmark : block v stop place = [5] → ∀ e e' : HeaderError, words e.message e'.message) :
    Alike words (SameFound words) (option v place stop) (option w place stop) := by
  by_cases hbare : block v stop place = [5]
  · obtain ⟨e, he⟩ := exists_error_of_block_eq hbare h.le_left hplace
    rw [block, h.take] at hbare
    obtain ⟨e', he'⟩ := exists_error_of_block_eq hbare h.le_right hplace
    rw [he, he']
    exact .error (hmark (by rwa [block, h.take]) e e')
  refine (alike_of_eq hwords (byte_eq_of_agree h hplace)).bind fun kind _ hsame => ?_
  obtain ⟨rfl, hkind⟩ := hsame
  have hfive := succ_lt_of_block_ne hbare h.le_left hplace hkind
  generalize kind.toNat = n at hfive
  split
  case h_1 => exact .ok .none
  case h_2 | h_5 =>
    refine (alike_bounded hwords _ _ _).bind fun next next' hnext => ?_
    obtain ⟨rfl, -, -⟩ := hnext
    exact .ok (alike_bareOption hwords (.refl _) _ _ _)
  case h_3 =>
    refine (alike_bounded hwords _ _ _).bind fun next next' hnext => ?_
    obtain ⟨rfl, rfl, hstop⟩ := hnext
    refine (alike_of_eq hwords (word_eq_of_agree 2 h (by omega) hstop)).bind fun size _ hsize => ?_
    exact .ok (hsize.1 ▸ alike_bareOption hwords (.refl _) _ _ _)
  case h_4 =>
    refine (alike_bounded hwords _ _ _).bind fun next next' hnext => ?_
    obtain ⟨rfl, rfl, hstop⟩ := hnext
    refine (alike_of_eq hwords (byte_eq_of_agree h (by omega))).bind fun shift _ hshift => ?_
    exact .ok (hshift.1 ▸ alike_bareOption hwords (.refl _) _ _ _)
  case h_6 =>
    refine (alike_of_eq hwords (byte_eq_of_agree h (hfive rfl))).bind fun length _ hlength => ?_
    obtain ⟨rfl, -⟩ := hlength
    by_cases hshort : length.toNat < 2
    · simp only [if_pos hshort]
      exact .error (hwords _)
    simp only [if_neg hshort]
    refine (alike_bounded hwords _ _ _).bind fun next next' hnext => ?_
    obtain ⟨rfl, rfl, hstop⟩ := hnext
    obtain ⟨blocks, hblocks, -⟩ :=
      view_eq_ok (v := v) (a := place + 2) (b := place + length.toNat) (by omega)
        (hstop.trans h.le_left)
    obtain ⟨blocks', hblocks', hsame⟩ := view_of_agree h hstop blocks hblocks
    rw [hblocks, hblocks']
    exact .ok (alike_bareOption hwords (.bytes hsame) _ _ _)
  case h_7 =>
    refine (alike_bounded hwords _ _ _).bind fun next next' hnext => ?_
    obtain ⟨rfl, rfl, hstop⟩ := hnext
    have hsame : timestamps v place (place + 10) = timestamps w place (place + 10) := by
      rw [timestamps, timestamps, word_eq_of_agree 4 h (by omega) (by omega),
        word_eq_of_agree 4 h (by omega) (by omega)]
    refine (alike_of_eq hwords hsame).bind fun p _ hp => ?_
    exact .ok (hp.1 ▸ .some ⟨.refl hwords p, rfl⟩)
  case h_8 => exact .error (hwords _)

/-- All options are read alike. Where they end in the bare mark of a list of blocks the words of the
errors may be any. -/
theorem optionsFrom_alike (hwords : ∀ e, words e e) (h : Agree stop v w) (count place : ℕ)
    (hmark : (∃ os, Leaves (block v stop place) os [5]) →
      ∀ e e' : HeaderError, words e.message e'.message) :
    List.Forall₂ (Property.Alike words) (optionsFrom v stop count place).1
        (optionsFrom w stop count place).1 ∧
      words (optionsFrom v stop count place).2 (optionsFrom w stop count place).2 := by
  induction count generalizing place with
  | zero => exact ⟨.nil, hwords _⟩
  | succ count ih =>
    rw [optionsFrom, optionsFrom]
    by_cases hplace : place < stop
    · rw [if_pos hplace, if_pos hplace]
      have halike := option_alike hwords h hplace fun heq => hmark ⟨[], heq ▸ .nil _⟩
      generalize option w place stop = found' at halike
      generalize hv : option v place stop = found at halike
      cases halike with
      | error herror => exact ⟨.nil, herror⟩
      | ok hfound =>
        cases hfound with
        | none => exact ⟨.nil, hwords _⟩
        | @some a b hab =>
          obtain ⟨p, next⟩ := a
          obtain ⟨p', next'⟩ := b
          obtain ⟨hp, rfl : next = next'⟩ := hab
          obtain ⟨o, rest, hlead⟩ := exists_leads_of_option h.le_left hplace hv
          obtain ⟨q, hq, -⟩ := option_of_leads hlead h.le_left
          obtain rfl : next = place + o.length := by
            rw [hv] at hq
            cases hq
            rfl
          have hrest : block v stop (place + o.length) = rest := by rw [← drop_block, hlead.drop]
          have hbehind := ih (place + o.length) fun hbare =>
            hmark (hbare.elim fun os hos => ⟨o :: os, .cons hlead (hrest ▸ hos)⟩)
          exact ⟨.cons hp hbehind.1, hbehind.2⟩
    · rw [if_neg hplace, if_neg hplace]
      exact ⟨.nil, hwords _⟩

theorem alike_options (hwords : ∀ e, words e e) (h : Agree stop v w)
    (hmark : (∃ os, Leaves (block v stop minHeaderLength) os [5]) →
      ∀ e e' : HeaderError, words e.message e'.message) :
    (options v stop).Alike words (options w stop) := by
  obtain ⟨hchildren, herror⟩ :=
    optionsFrom_alike hwords h (stop - minHeaderLength) minHeaderLength hmark
  exact ⟨rfl, .refl _, rfl, rfl, herror, hchildren⟩

/-- The options say the same. Only the words of an error may differ. -/
theorem matches_options (h : Agree stop v w) : (options v stop).Matches (options w stop) :=
  alike_options (fun _ => Iff.rfl) h fun _ e e' => iff_of_false e.message_ne_empty e'.message_ne_empty

/-- The words are the same unless the options end in the bare mark of a list of blocks. -/
theorem same_options (h : Agree stop v w) (hmark : ∀ os, ¬Leaves (block v stop minHeaderLength) os [5]) :
    (options v stop).Same (options w stop) :=
  alike_options (fun _ => rfl) h fun hbare => hbare.elim fun os hos => absurd hos (hmark os)

/-! ### Fixed fields -/

theorem blind_nameStream (parent : Layer) : Blind (nameStream parent) :=
  .bind (fun _ => .bind (fun _ => blind_pure fun _ _ => rfl) _) _

theorem blind_readFlags (v : ByteView) : Blind (readFlags v) := by
  refine .bind (fun n => blind_pure fun l u => ?_) _
  dsimp only
  split <;> rfl

/-- The steps up to the length of the header are the same if the fixed fields are. -/
theorem take_steps_eq (parent : Layer) (h : Agree minHeaderLength v w) :
    (steps { parent with payload := v }).take 10 = (steps { parent with payload := w }).take 10 := by
  have hname : nameStream { parent with payload := v } = nameStream { parent with payload := w } := by
    funext l
    rw [nameStream, nameStream]
    dsimp only
    rw [word_eq_of_agree 2 h (by decide) (by decide), word_eq_of_agree 2 h (by decide) (by decide)]
    rfl
  have hflags : readFlags v = readFlags w := by
    funext l
    rw [readFlags, readFlags, word_eq_of_agree 2 h (by decide) (by decide)]
  simp (disch := decide) only [steps, hname, hflags, wordProperty_eq_of_agree h,
    byteProperty_eq_of_agree h, List.take_succ_cons, List.take_zero]

theorem blind_take_steps (parent : Layer) : ∀ step ∈ (steps parent).take 10, Blind step := by
  simp only [steps, List.take_succ_cons, List.take_zero, List.forall_mem_cons]
  exact ⟨blind_field _, blind_field _, blind_nameStream _, blind_field _, blind_field _, blind_field _,
    blind_readFlags _, blind_field _, blind_field _, blind_field _, List.forall_mem_nil _⟩

/-! ### Whole layers -/

variable {p q : ByteView}

theorem HasHeader.of_agree (hp : HasHeader p stop) (h : Agree stop p q) : HasHeader q stop where
  words := by
    obtain ⟨b, hb, hstop⟩ := hp.words
    have hlt : 12 < stop := Nat.lt_of_lt_of_le (by decide) hp.least
    have hbyte : byte p 12 = .ok b := by rw [byte, hb]
    rw [byte_eq_of_agree h hlt, byte] at hbyte
    split at hbyte
    · next c hc => exact ⟨c, hc, Except.ok.inj hbyte ▸ hstop⟩
    · cases hbyte
  least := hp.least
  fits := h.le_right

/-- The layers of two segments with one header differ in the options and in what they carry. -/
theorem exists_dissect_eq (parent : Layer) (hp : HasHeader p stop) (h : Agree stop p q) :
    ∃ (l : Layer) (body body' : ByteView),
      dissect { parent with payload := p } = { l.push (options p stop) with payload := body } ∧
      dissect { parent with payload := q } = { l.push (options q stop) with payload := body' } := by
  let start : Layer := { ns := parent.ns.descend "tcp", payload := p.tail }
  have hsteps := take_steps_eq parent (h.mono hp.least)
  have hblind := blind_take_steps { parent with payload := p }
  have hone := dissect_of_hasHeader { parent with payload := p } hp
  have hother := dissect_of_hasHeader { parent with payload := q } (hp.of_agree h)
  have hcarried := run_carrying hblind start q.tail
  rw [← hsteps] at hother
  refine ⟨_, p.clamped stop p.size, q.clamped stop q.size, hone, hother.trans ?_⟩
  rw [hcarried]
  rfl

/-- **What stands behind the header does not matter.** For every parent layer and any two payloads that
start with the same complete header: the layers have the same namespace, summary, stream, error and
properties. Only if the last byte of the header is the bare mark of a list of blocks, the error of the
options may be put into different words. -/
theorem dissect_agree (parent : Layer) (hp : HasHeader p stop) (h : Agree stop p q) :
    let read := fun u => dissect { parent with payload := u }
    (read p).SameHeader (read q) ∧
      ((∀ os, ¬Leaves (block p stop minHeaderLength) os [5]) →
        List.Forall₂ Property.Same (read p).properties (read q).properties) := by
  intro read
  obtain ⟨l, body, body', hone, hother⟩ := exists_dissect_eq parent hp h
  have hfirst : List.Forall₂ Property.Same l.properties l.properties :=
    List.forall₂_same.mpr fun p _ => .refl p
  have hmatches : List.Forall₂ Property.Matches l.properties l.properties :=
    List.forall₂_same.mpr fun p _ => .refl p
  simp only [read, hone, hother]
  refine ⟨⟨rfl, rfl, rfl, rfl, rfl, List.rel_append hmatches ?_⟩, fun hmark => ?_⟩
  · exact .cons (matches_options h) .nil
  · exact List.rel_append hfirst (.cons (same_options h hmark) .nil)

/-- A header with two options before two bytes, and the same header alone. -/
theorem dissect_agree_scale :
    let header : List UInt8 :=
      [0, 80, 4, 1, 0, 0, 0, 7, 0, 0, 0, 9, 0x60, 0x12, 0, 100, 0, 0, 0, 0, 1, 3, 3, 7]
    let view := fun body => ByteView.ofBytes (.packet 1) (header ++ body)
    let read := fun body => dissect { ns := ⟨[.tentative "tcp"]⟩, payload := view body }
    HasHeader (view [104, 105]) 24 ∧ Agree 24 (view [104, 105]) (view []) ∧
      (∀ os, ¬Leaves (block (view [104, 105]) 24 minHeaderLength) os [5]) ∧
      (read [104, 105]).SameHeader (read []) ∧
      List.Forall₂ Property.Same (read [104, 105]).properties (read []).properties := by
  intro header view read
  have hheader : HasHeader (view [104, 105]) 24 := ⟨⟨0x60, by decide, by decide⟩, by decide, by decide⟩
  have hagree : Agree 24 (view [104, 105]) (view []) := ⟨by decide, by decide, by decide⟩
  have hmark : ∀ os, ¬Leaves (block (view [104, 105]) 24 minHeaderLength) os [5] := by
    have hblock : block (view [104, 105]) 24 minHeaderLength = [1, 3, 3, 7] := by decide
    rw [hblock]
    rintro os (_ | ⟨⟨_⟩, _ | ⟨⟨_⟩, _ | ⟨⟨⟩, _⟩⟩⟩)
  obtain ⟨hsame, hproperties⟩ := dissect_agree { ns := ⟨[.tentative "tcp"]⟩ } hheader hagree
  exact ⟨hheader, hagree, hmark, hsame, hproperties hmark⟩

/-- A header that ends in the bare mark of a list of blocks. If nothing follows, the length of the list is
missing; if zero follows, the list is said to be shorter than its mark. -/
theorem not_dissect_agree :
    ¬∀ (parent : Layer) (p q : ByteView) (stop : ℕ), HasHeader p stop → Agree stop p q →
      let read := fun u => dissect { parent with payload := u }
      List.Forall₂ Property.Same (read p).properties (read q).properties := by
  intro h
  let header : List UInt8 :=
    [0, 80, 4, 1, 0, 0, 0, 7, 0, 0, 0, 9, 0x60, 0x10, 0, 100, 0, 0, 0, 0, 1, 1, 1, 5]
  let view := fun body => ByteView.ofBytes (.packet 1) (header ++ body)
  have hsame := h { ns := ⟨[.tentative "tcp"]⟩ } (view []) (view [0]) 24
    ⟨⟨0x60, by decide, by decide⟩, by decide, by decide⟩ ⟨by decide, by decide, by decide⟩
  exact absurd (Property.errors_eq hsame) (by decide)

end PacketTree.Tcp
