import PacketTree.Proofs.Protocol.Boundary

/-!
# Packets that are cut off

A packet may be captured in part only. Each of the built-in dissectors then reads what is there, field
by field, and gives up where the next one is missing. This module proves that what was read up to there
is what would have been read from the whole packet.

## What is proved

* `Kind.truncates_dissect`: what the layers of a part and of the whole have in common.
* `Kind.dissect_cut`: a cut keeps exactly what was read before it, and a layer in error is the last.

## The model

For each protocol the steps that read the part follow those that read the whole. The options of TCP are
read only where the whole header was captured, and then say the same, up to the words of an error.
-/

namespace PacketTree

open Header ByteView

variable {v w : ByteView} {parent : Layer} {q : ByteView}

namespace Ethernet

theorem follows_summarize (h : v.toList <+: w.toList) : Follows (summarize v) (summarize w) := by
  refine .bind (persists_bytes h 0 6) fun dst _ hdst => ?_
  refine .bind (persists_bytes h 6 12) fun src _ hsrc => ?_
  subst hdst hsrc
  exact follows_pure fun _ _ hlm => { hlm with summary := rfl }

theorem follows_readType (h : v.toList <+: w.toList) : Follows (readType v) (readType w) := by
  refine .bind (persists_word h 2 12 14) fun n _ hn => ?_
  subst hn
  refine .ite (fun _ => ?_) fun _ => ?_
  · exact follows_pure fun _ _ hlm => Layer.SameHeader.push { hlm with } (.refl _)
  · cases Protocol.etherType? n with
    | none => exact follows_pure fun _ _ hlm => Layer.SameHeader.push { hlm with } (.refl _)
    | some p =>
      exact follows_pure fun l m hlm =>
        Layer.SameHeader.push { hlm with ns := congrArg (·.announce p.token) hlm.ns } (.refl _)

theorem truncates_dissect (h : q.toList <+: parent.payload.toList) :
    (dissect { parent with payload := q }).Truncates (dissect parent) := by
  refine truncates_read (grows_steps parent.payload) (handsOn_readType parent.payload) ?_
  exact .cons (follows_field (persists_addressProperty h _ _ 0 6)) <|
    .cons (follows_field (persists_addressProperty h _ _ 6 12)) <|
    .cons (follows_summarize h) <| .cons (follows_readType h) .nil

end Ethernet

/-- A length that the header itself gives, in words of four bytes. -/
theorem persists_length (h : v.toList <+: w.toList) {x y : Result ℕ} (hxy : Persists Eq x y)
    (least : ℕ) (tooShort : ℕ → HeaderError) :
    Persists (fun _ _ => True)
      (do
        let words ← x
        if words * 4 < least then throw (tooShort words)
        require v (words * 4))
      (do
        let words ← y
        if words * 4 < least then throw (tooShort words)
        require w (words * 4)) := by
  refine hxy.bind fun words _ hwords => ?_
  subst hwords
  by_cases hshort : words * 4 < least
  · simp only [if_pos hshort]
    exact persists_error _
  · simp only [if_neg hshort]
    exact persists_require h (words * 4)

/-- What a number announces, if it announces anything. -/
theorem follows_announce (announced? : Option Protocol.Announced) (u u' : ByteView) :
    Follows
      (fun l => match announced? with
        | some p => return { l with payload := u, ns := l.ns.announce p.token }
        | none => return { l with payload := u })
      fun l => match announced? with
        | some p => return { l with payload := u', ns := l.ns.announce p.token }
        | none => return { l with payload := u' } := by
  cases announced? with
  | none => exact follows_pure fun _ _ hlm => { hlm with }
  | some p =>
    exact follows_pure fun _ _ hlm => { hlm with ns := congrArg (·.announce p.token) hlm.ns }

namespace Ipv4

theorem persists_headerWords (h : v.toList <+: w.toList) :
    Persists Eq (headerWords v) (headerWords w) :=
  (persists_byte h 0).map fun _ _ => congrArg fun b : UInt8 => b.toNat % 16

theorem persists_flags (h : v.toList <+: w.toList) : Persists Property.Matches (flags v) (flags w) :=
  (persists_word h 2 6 8).map fun _ _ hn => hn ▸ .refl _

theorem persists_fragmentOffset (h : v.toList <+: w.toList) :
    Persists Property.Matches (fragmentOffset v) (fragmentOffset w) :=
  (persists_word h 2 6 8).map fun _ _ hn => hn ▸ .refl _

theorem persists_protocol (h : v.toList <+: w.toList) :
    Persists Property.Matches (protocol v) (protocol w) :=
  (persists_byte h 9).bind fun _ _ hn => .pure (hn ▸ .refl _)

theorem follows_summarize (h : v.toList <+: w.toList) : Follows (summarize v) (summarize w) := by
  refine .bind (persists_bytes h 12 16) fun src _ hsrc => ?_
  refine .bind (persists_bytes h 16 20) fun dst _ hdst => ?_
  subst hsrc hdst
  exact follows_pure fun _ _ hlm => { hlm with summary := rfl }

theorem persists_checkLength (h : v.toList <+: w.toList) :
    Persists (fun _ _ => True) (checkLength v) (checkLength w) :=
  persists_length h (persists_headerWords h) minHeaderLength (.invalid "header length")

theorem follows_carry (h : v.toList <+: w.toList) : Follows (carry v) (carry w) := by
  refine .bind (persists_headerWords h) fun words _ hwords => ?_
  refine .bind (persists_word h 2 2 4) fun total _ htotal => ?_
  refine .bind (persists_byte h 9) fun n _ hn => ?_
  subst hwords htotal hn
  exact follows_announce (Protocol.internet? n.toNat) _ _

theorem truncates_dissect (h : q.toList <+: parent.payload.toList) :
    (dissect { parent with payload := q }).Truncates (dissect parent) := by
  refine truncates_read (grows_steps parent.payload) (handsOn_carry parent.payload) ?_
  exact .cons (follows_field (persists_byteProperty h _ 0 _)) <|
    .cons (follows_field (persists_byteProperty h _ 0 _)) <|
    .cons (follows_field (persists_byteProperty h _ 1 _)) <|
    .cons (follows_field (persists_wordProperty h _ 2 4)) <|
    .cons (follows_field (persists_wordProperty h _ 4 6)) <|
    .cons (follows_field (persists_flags h)) <|
    .cons (follows_field (persists_fragmentOffset h)) <|
    .cons (follows_field (persists_byteProperty h _ 8 _)) <|
    .cons (follows_field (persists_protocol h)) <|
    .cons (follows_field (persists_wordProperty h _ 10 12)) <|
    .cons (follows_field (persists_addressProperty h _ _ 12 16)) <|
    .cons (follows_field (persists_addressProperty h _ _ 16 20)) <|
    .cons (follows_summarize h) <| .cons (follows_check (persists_checkLength h)) <|
    .cons (follows_carry h) .nil

end Ipv4

namespace Ipv6

theorem persists_firstWordField (h : v.toList <+: w.toList) (id : String) (stop : ℕ)
    (read : ℕ → ℕ) :
    Persists Property.Matches (firstWordField id v stop read) (firstWordField id w stop read) :=
  (persists_word h 4 0 4).map fun _ _ hn => hn ▸ .refl _

theorem persists_nextHeader (h : v.toList <+: w.toList) :
    Persists Property.Matches (nextHeader v) (nextHeader w) :=
  (persists_byte h 6).bind fun _ _ hn => .pure (hn ▸ .refl _)

theorem follows_summarize (h : v.toList <+: w.toList) : Follows (summarize v) (summarize w) := by
  refine .bind (persists_bytes h 8 24) fun src _ hsrc => ?_
  refine .bind (persists_bytes h 24 40) fun dst _ hdst => ?_
  subst hsrc hdst
  exact follows_pure fun _ _ hlm => { hlm with summary := rfl }

theorem follows_carry (h : v.toList <+: w.toList) : Follows (carry v) (carry w) := by
  refine .bind (persists_word h 2 4 6) fun length _ hlength => ?_
  refine .bind (persists_byte h 6) fun n _ hn => ?_
  subst hlength hn
  exact follows_announce (Protocol.internet? n.toNat) _ _

theorem truncates_dissect (h : q.toList <+: parent.payload.toList) :
    (dissect { parent with payload := q }).Truncates (dissect parent) := by
  refine truncates_read (grows_steps parent.payload) (handsOn_carry parent.payload) ?_
  exact .cons (follows_field (persists_firstWordField h _ 1 _)) <|
    .cons (follows_field (persists_firstWordField h _ 2 _)) <|
    .cons (follows_field (persists_firstWordField h _ 4 _)) <|
    .cons (follows_field (persists_wordProperty h _ 4 6)) <|
    .cons (follows_field (persists_nextHeader h)) <|
    .cons (follows_field (persists_byteProperty h _ 7 _)) <|
    .cons (follows_field (persists_addressProperty h _ _ 8 24)) <|
    .cons (follows_field (persists_addressProperty h _ _ 24 40)) <|
    .cons (follows_summarize h) <| .cons (follows_carry h) .nil

end Ipv6

namespace Udp

theorem follows_summarize (h : v.toList <+: w.toList) : Follows (summarize v) (summarize w) := by
  refine .bind (persists_word h 2 0 2) fun src _ hsrc => ?_
  refine .bind (persists_word h 2 2 4) fun dst _ hdst => ?_
  subst hsrc hdst
  exact follows_pure fun _ _ hlm => { hlm with summary := rfl }

theorem follows_carry (h : v.toList <+: w.toList) : Follows (carry v) (carry w) := by
  refine .bind (persists_word h 2 4 6) fun length _ hlength => ?_
  subst hlength
  intro l m hlm
  by_cases hshort : length < headerLength
  · simp only [if_pos hshort]
    exact persists_error _
  · simp only [if_neg hshort]
    exact .pure { hlm with }

theorem truncates_dissect (h : q.toList <+: parent.payload.toList) :
    (dissect { parent with payload := q }).Truncates (dissect parent) := by
  refine truncates_read (grows_steps parent.payload) (handsOn_carry parent.payload) ?_
  exact .cons (follows_field (persists_wordProperty h _ 0 2)) <|
    .cons (follows_field (persists_wordProperty h _ 2 4)) <|
    .cons (follows_summarize h) <|
    .cons (follows_field (persists_wordProperty h _ 4 6)) <|
    .cons (follows_field (persists_wordProperty h _ 6 8)) <| .cons (follows_carry h) .nil

end Udp

namespace Tcp

theorem persists_headerWords (h : v.toList <+: w.toList) :
    Persists Eq (headerWords v) (headerWords w) :=
  (persists_byte h 12).map fun _ _ => congrArg fun b : UInt8 => b.toNat / 16

theorem follows_nameStream (h : q.toList <+: parent.payload.toList) :
    Follows (nameStream { parent with payload := q }) (nameStream parent) := by
  refine .bind (persists_word h 2 0 2) fun src _ hsrc => ?_
  refine .bind (persists_word h 2 2 4) fun dst _ hdst => ?_
  subst hsrc hdst
  exact follows_pure fun _ _ hlm => { hlm with summary := rfl, streamId := rfl }

theorem follows_readFlags (h : v.toList <+: w.toList) : Follows (readFlags v) (readFlags w) := by
  refine .bind (persists_word h 2 12 14) fun n _ hn => ?_
  subst hn
  refine follows_pure fun l m hlm => ?_
  by_cases hsummary : (flagProperty "flags" (n % 0x200) ⟨12, 14⟩ flagBits).summary = ""
  · simp only [if_pos hsummary]
    exact hlm.push (.refl _)
  · simp only [if_neg hsummary]
    exact Layer.SameHeader.push { hlm with summary := by rw [hlm.summary] } (.refl _)

theorem persists_checkLength (h : v.toList <+: w.toList) :
    Persists (fun _ _ => True) (checkLength v) (checkLength w) :=
  persists_length h (persists_headerWords h) minHeaderLength (.invalid "data offset")

theorem follows_checkedOptions (h : v.toList <+: w.toList) :
    Follows (checked (checkLength v) (readOptions v)) (checked (checkLength w) (readOptions w)) := by
  intro l m hlm next hnext
  obtain ⟨_, hcheck, hnext⟩ := exists_of_bind hnext
  obtain ⟨_, hcheck', -⟩ := persists_checkLength h _ hcheck
  obtain ⟨words, hwords, -, hstop⟩ := of_checkLength_eq_ok hcheck
  obtain ⟨_, hwords', rfl⟩ := persists_headerWords h words hwords
  rw [readOptions, hwords] at hnext
  cases hnext
  rw [checked, hcheck', readOptions, hwords']
  exact ⟨_, rfl, hlm.push (matches_options ((agree_of_isPrefix h).mono hstop))⟩

theorem follows_carry (h : v.toList <+: w.toList) : Follows (carry v) (carry w) := by
  refine .bind (persists_headerWords h) fun words _ _ => ?_
  exact follows_pure fun _ _ hlm => { hlm with }

theorem truncates_dissect (h : q.toList <+: parent.payload.toList) :
    (dissect { parent with payload := q }).Truncates (dissect parent) := by
  rw [dissect_eq, dissect_eq]
  refine truncates_read (grows_headerSteps parent) (handsOn_carry parent.payload) ?_
  exact .cons (follows_field (persists_wordProperty h _ 0 2)) <|
    .cons (follows_field (persists_wordProperty h _ 2 4)) <|
    .cons (follows_nameStream h) <|
    .cons (follows_field (persists_wordProperty h _ 4 8)) <|
    .cons (follows_field (persists_wordProperty h _ 8 12)) <|
    .cons (follows_field (persists_byteProperty h _ 12 _)) <|
    .cons (follows_readFlags h) <|
    .cons (follows_field (persists_wordProperty h _ 14 16)) <|
    .cons (follows_field (persists_wordProperty h _ 16 18)) <|
    .cons (follows_field (persists_wordProperty h _ 18 20)) <|
    .cons (follows_checkedOptions h) <| .cons (follows_carry h) .nil

end Tcp

/-! ### All of them -/

namespace Protocol

variable {σ : Type}

/-- A packet that is cut off. -/
theorem Kind.truncates_dissect (k : Kind) (h : q.toList <+: parent.payload.toList) :
    (k.dissect { parent with payload := q }).Truncates (k.dissect parent) :=
  match k with
  | .ethernet => Ethernet.truncates_dissect h
  | .ipv4 => Ipv4.truncates_dissect h
  | .ipv6 => Ipv6.truncates_dissect h
  | .tcp => Tcp.truncates_dissect h
  | .udp => Udp.truncates_dissect h

/-- No built-in dissector is called for a layer that announces nothing. -/
theorem selects_of_confirmed {ns : Namespace} {name : String}
    (h : ns.last? = some (.confirmed name)) (memory : σ) :
    ∀ d ∈ builtin memory, d.selects ns = false := by
  intro d hd
  rw [builtin_eq] at hd
  obtain ⟨k, -, rfl⟩ := List.mem_map.mp hd
  simp [Kind.dissector, selects_dissector, h]

/-- **A cut keeps exactly what was read before it.** Whatever packet is cut off wherever: the fields
read from the part are the first of those read from the whole, with the same names, values, places and
parts; and if the part can be read without an error, so can the whole, with the same fields. All fields
lie in the payload that they were read from. A layer in error carries nothing but the end of its payload
and announces nothing, so that it is the last. -/
theorem Kind.dissect_cut (k : Kind) (parent : Layer) {p q : ByteView} (h : q.toList <+: p.toList)
    (memory : σ) :
    let read := fun u => k.dissect { parent with payload := u }
    (∃ fields, fields <+: (read p).properties ∧
        List.Forall₂ Property.Matches (read q).properties fields) ∧
      ((read q).error = "" → (read p).error = "" ∧
        List.Forall₂ Property.Matches (read q).properties (read p).properties) ∧
      ∀ u, (∀ field ∈ (read u).properties, field.FitsIn u.size) ∧
        ((read u).error ≠ "" → (read u).payload = u.tail ∧
          (read u).ns.last? = some (.confirmed k.name) ∧
          ∀ d ∈ builtin memory, d.selects (read u).ns = false) := by
  intro read
  let whole : Layer := { parent with payload := p }
  have hpre : q.toList <+: whole.payload.toList := h
  have hcut : (read q).Truncates (read p) := k.truncates_dissect hpre
  refine ⟨hcut.properties, fun herror => ?_, fun u => ?_⟩
  · have hsame := hcut.whole herror
    exact ⟨hsame.error ▸ herror, hsame.properties⟩
  · have hleft := k.leftBy_dissect { parent with payload := u }
    refine ⟨hleft.fits, fun herror => ?_⟩
    obtain ⟨hpayload, hns⟩ := hleft.broken herror
    have hlast : (read u).ns.last? = some (.confirmed k.name) := by
      rw [hns, Namespace.last?_descend]
    exact ⟨hpayload, hlast, selects_of_confirmed hlast memory⟩

/-- A segment with an option that is cut off by the end of its header, and one byte behind it: without
that byte the fields are the same, and without the last byte of the header there is an error. -/
theorem Kind.dissect_cut_segment :
    let bytes : List UInt8 :=
      [0, 80, 4, 1, 0, 0, 0, 7, 0, 0, 0, 9, 0x60, 0x18, 0, 100, 0, 0, 0, 0, 1, 1, 1, 5, 9]
    let view := fun n => ByteView.ofBytes (.packet 1) (bytes.take n)
    let read := fun u => Kind.tcp.dissect { ns := ⟨[.tentative "tcp"]⟩, payload := u }
    (view 24).toList <+: (view 25).toList ∧ (read (view 24)).error = "" ∧
      List.Forall₂ Property.Matches (read (view 24)).properties (read (view 25)).properties ∧
      (read (view 23)).error ≠ "" ∧ (read (view 23)).payload = (view 23).tail := by
  intro bytes view read
  have hpre : (view 24).toList <+: (view 25).toList := by decide
  have herror : (read (view 24)).error = "" := by decide
  have hbroken : (read (view 23)).error ≠ "" := by decide
  obtain ⟨-, hwhole, hevery⟩ :=
    Kind.tcp.dissect_cut { ns := ⟨[.tentative "tcp"]⟩ } hpre ()
  exact ⟨hpre, herror, (hwhole herror).2, hbroken, ((hevery (view 23)).2 hbroken).1⟩

end Protocol

end PacketTree
