import PacketTree.Proofs.Header.Outcome
import PacketTree.Proofs.Protocol.Chain

/-!
# What the built-in dissectors leave behind

The five protocols have different headers, and all of them leave a layer behind in the same way: its
fields lie in the payload, what it carries is a part of the payload, and it announces one of a few
protocols or none. A layer in error carries nothing and announces nothing.

## What is proved

* `builtin_eq`: the built-in dissectors are those of the five kinds.
* `Kind.leftBy_dissect`: what any of them leaves behind.

## The model

A `Kind` is one of the five protocols, with its name, the tokens that its dissector is called for, the
protocols that it may announce and what reads its header.
-/

namespace PacketTree

open Header

namespace Protocol

/-- A protocol with a built-in dissector. -/
inductive Kind where
  /-- Ethernet. -/
  | ethernet
  /-- Version 4 of the internet protocol. -/
  | ipv4
  /-- Version 6. -/
  | ipv6
  /-- TCP. -/
  | tcp
  /-- UDP. -/
  | udp
deriving DecidableEq, Repr

namespace Kind

/-- The name of the protocol. -/
def name : Kind → String
  | ethernet => "eth"
  | ipv4 => "ipv4"
  | ipv6 => "ipv6"
  | tcp => "tcp"
  | udp => "udp"

/-- The tokens of the protocols that a layer may announce. -/
def announces : Kind → List String
  | ethernet => etherTypes.map fun entry => entry.2.token
  | ipv4 | ipv6 => internetProtocols.map fun entry => entry.2.token
  | tcp | udp => []

/-- What reads the header. -/
def dissect : Kind → Layer → Layer
  | ethernet => Ethernet.dissect
  | ipv4 => Ipv4.dissect
  | ipv6 => Ipv6.dissect
  | tcp => Tcp.dissect
  | udp => Udp.dissect

/-- The tokens that the dissector is called for. -/
def tokens : Kind → List String
  | ethernet => ["eth"]
  | ipv4 => ["ipv4", "ip"]
  | ipv6 => ["ipv6", "ip"]
  | tcp => ["tcp"]
  | udp => ["udp"]

/-- The layers in which the dissector finds the protocol. -/
def fits : Kind → Layer → Bool
  | ipv4 => isVersion4
  | ipv6 => isVersion6
  | ethernet | tcp | udp => fun _ => true

/-- The dissector. -/
def dissector {σ : Type} (k : Kind) (memory : σ) : Dissector σ :=
  Protocol.dissector k.name k.tokens k.fits k.dissect memory

end Kind

/-- There is one dissector of each kind. -/
theorem builtin_eq {σ : Type} (memory : σ) : builtin memory =
    [Kind.ethernet, .ipv4, .ipv6, .tcp, .udp].map fun k => k.dissector memory := rfl

theorem token_mem_of_lookup {table : List (ℕ × Announced)} {n : ℕ} {p : Announced}
    (h : table.lookup n = some p) : p.token ∈ table.map fun entry => entry.2.token := by
  obtain ⟨before, after, rfl, -⟩ := List.lookup_eq_some_iff.mp h
  simp

/-- What a number from a table announces, if it announces anything. -/
theorem handsOn_announce {v w : ByteView} (hw : w.Within v) (table : List (ℕ × Announced)) (n : ℕ) :
    HandsOn v (table.map fun entry => entry.2.token) fun l => match table.lookup n with
      | some p => return { l with payload := w, ns := l.ns.announce p.token }
      | none => return { l with payload := w } := by
  intro l m hm
  cases hp : table.lookup n with
  | none =>
    rw [hp] at hm
    cases hm
    exact ⟨[], w, l.ns, by simp, hw, .inl rfl, by simp⟩
  | some p =>
    rw [hp] at hm
    cases hm
    exact ⟨[], w, _, by simp, hw, .inr ⟨p.token, token_mem_of_lookup hp, rfl⟩, by simp⟩

end Protocol

/-! ### The steps of each protocol -/

namespace Ethernet

theorem grows_summarize (v : ByteView) (n : ℕ) : Grows n (summarize v) :=
  .bind fun _ _ => .bind fun _ _ => grows_words fun l => ⟨_, l.streamId, rfl⟩

theorem handsOn_readType (v : ByteView) :
    HandsOn v (Protocol.Kind.announces .ethernet) (readType v) := by
  refine .bind fun n hn l m hm => ?_
  have hstop : 14 ≤ v.size := (word_fits hn).2
  have hfits : ∀ p : Property, p.range = ⟨12, 14⟩ → p.children = [] → p.FitsIn v.size :=
    fun p hrange hchildren => Property.fitsIn_of_children_eq_nil (by rw [hrange]; decide)
      (by rw [hrange]; exact hstop) hchildren
  have hwithin := ByteView.within_clamped v headerLength v.size
  dsimp only at hm
  split at hm
  · cases hm
    exact ⟨[_], _, l.ns, by simpa using hfits _ rfl rfl, hwithin, .inl rfl, rfl⟩
  · split at hm
    · next p hp =>
      cases hm
      exact ⟨[_], _, _, by simpa using hfits _ rfl rfl, hwithin,
        .inr ⟨p.token, Protocol.token_mem_of_lookup hp, rfl⟩, rfl⟩
    · cases hm
      exact ⟨[_], _, l.ns, by simpa using hfits _ rfl rfl, hwithin, .inl rfl, rfl⟩

theorem grows_steps (v : ByteView) : ∀ step ∈ (steps v).dropLast, Grows v.size step := by
  simp [steps, grows_summarize]

theorem leftBy_dissect (parent : Layer) :
    Layer.LeftBy "eth" (Protocol.Kind.announces .ethernet) parent (dissect parent) :=
  leftBy_read (grows_steps parent.payload) (handsOn_readType parent.payload)

end Ethernet

namespace Ipv4

theorem grows_flags (v : ByteView) : Grows v.size (field (flags v)) :=
  grows_field fun _ => of_map_eq_ok fun _ hn =>
    flagProperty_fits (by decide) ((Nat.le_succ 7).trans (word_fits hn).2) flagBits

theorem grows_fragmentOffset (v : ByteView) : Grows v.size (field (fragmentOffset v)) := by
  refine grows_field fun _ => of_map_eq_ok fun n hn => ?_
  exact Property.fitsIn_of_children_eq_nil (word_fits hn).1 (word_fits hn).2 rfl

theorem grows_protocol (v : ByteView) : Grows v.size (field (protocol v)) := by
  refine grows_field fun p hp => ?_
  obtain ⟨n, hn, hp⟩ := exists_of_bind hp
  cases hp
  exact Property.fitsIn_of_children_eq_nil (Nat.le_succ 9) (byte_fits hn) rfl

theorem grows_summarize (v : ByteView) (n : ℕ) : Grows n (summarize v) :=
  .bind fun _ _ => .bind fun _ _ => grows_words fun l => ⟨_, l.streamId, rfl⟩

theorem handsOn_carry (v : ByteView) : HandsOn v (Protocol.Kind.announces .ipv4) (carry v) := by
  refine .bind fun words _ => .bind fun total _ => .bind fun n _ => ?_
  exact Protocol.handsOn_announce (ByteView.within_clamped v (words * 4) total)
    Protocol.internetProtocols n.toNat

theorem grows_steps (v : ByteView) : ∀ step ∈ (steps v).dropLast, Grows v.size step := by
  simp [steps, grows_flags, grows_fragmentOffset, grows_protocol, grows_summarize]

theorem leftBy_dissect (parent : Layer) :
    Layer.LeftBy "ipv4" (Protocol.Kind.announces .ipv4) parent (dissect parent) :=
  leftBy_read (grows_steps parent.payload) (handsOn_carry parent.payload)

end Ipv4

namespace Ipv6

theorem grows_firstWordField (id : String) (v : ByteView) {stop : ℕ} (hstop : stop ≤ 4)
    (read : ℕ → ℕ) : Grows v.size (field (firstWordField id v stop read)) := by
  refine grows_field fun _ => of_map_eq_ok fun n hn => ?_
  exact Property.fitsIn_of_children_eq_nil (Nat.zero_le stop) (hstop.trans (word_fits hn).2) rfl

theorem grows_nextHeader (v : ByteView) : Grows v.size (field (nextHeader v)) := by
  refine grows_field fun p hp => ?_
  obtain ⟨n, hn, hp⟩ := exists_of_bind hp
  cases hp
  exact Property.fitsIn_of_children_eq_nil (Nat.le_succ 6) (byte_fits hn) rfl

theorem grows_summarize (v : ByteView) (n : ℕ) : Grows n (summarize v) :=
  .bind fun _ _ => .bind fun _ _ => grows_words fun l => ⟨_, l.streamId, rfl⟩

theorem handsOn_carry (v : ByteView) : HandsOn v (Protocol.Kind.announces .ipv6) (carry v) := by
  refine .bind fun length _ => .bind fun n _ => ?_
  exact Protocol.handsOn_announce
    (ByteView.within_clamped v headerLength (headerLength + length))
    Protocol.internetProtocols n.toNat

theorem grows_steps (v : ByteView) : ∀ step ∈ (steps v).dropLast, Grows v.size step := by
  simp [steps, grows_firstWordField, grows_nextHeader, grows_summarize]

theorem leftBy_dissect (parent : Layer) :
    Layer.LeftBy "ipv6" (Protocol.Kind.announces .ipv6) parent (dissect parent) :=
  leftBy_read (grows_steps parent.payload) (handsOn_carry parent.payload)

end Ipv6

namespace Udp

theorem grows_summarize (v : ByteView) (n : ℕ) : Grows n (summarize v) :=
  .bind fun _ _ => .bind fun _ _ => grows_words fun l => ⟨_, l.streamId, rfl⟩

theorem handsOn_carry (v : ByteView) : HandsOn v (Protocol.Kind.announces .udp) (carry v) := by
  refine .bind fun length _ l m hm => ?_
  split at hm
  · cases hm
  · cases hm
    exact ⟨[], _, l.ns, by simp, ByteView.within_clamped v headerLength length, .inl rfl, by simp⟩

theorem grows_steps (v : ByteView) : ∀ step ∈ (steps v).dropLast, Grows v.size step := by
  simp [steps, grows_summarize]

theorem leftBy_dissect (parent : Layer) :
    Layer.LeftBy "udp" (Protocol.Kind.announces .udp) parent (dissect parent) :=
  leftBy_read (grows_steps parent.payload) (handsOn_carry parent.payload)

end Udp

namespace Tcp

variable {v : ByteView} {place length next stop : ℕ} {p : Property}

theorem grows_nameStream (parent : Layer) (n : ℕ) : Grows n (nameStream parent) :=
  .bind fun _ _ => .bind fun _ _ => grows_words fun _ => ⟨_, _, rfl⟩

theorem grows_readFlags (v : ByteView) : Grows v.size (readFlags v) := by
  refine .bind fun n hn l m hm => ?_
  have hfits : (flagProperty "flags" (n % 0x200) ⟨12, 14⟩ flagBits).FitsIn v.size :=
    flagProperty_fits (by decide) (word_fits hn).2 flagBits
  cases hm
  by_cases hsummary : (flagProperty "flags" (n % 0x200) ⟨12, 14⟩ flagBits).summary = ""
  · rw [if_pos hsummary]
    exact ⟨[_], l.summary, l.streamId, by simpa using hfits, rfl⟩
  · rw [if_neg hsummary]
    exact ⟨[_], _, l.streamId, by simpa using hfits, rfl⟩

/-! ### Options -/

theorem of_bounded_eq_ok (h : bounded place length stop = .ok next) :
    next = place + length ∧ next ≤ stop := by
  rw [bounded] at h
  split at h
  · cases h
  · cases h
    exact ⟨rfl, by omega⟩

theorem fitsIn_bareOption {id : String} {value : Value} (h : place ≤ next) :
    (bareOption id value place next).FitsIn next :=
  Property.fitsIn_of_children_eq_nil h le_rfl rfl

theorem fitsIn_timestamps (h : timestamps v place (place + 10) = .ok p) : p.FitsIn (place + 10) := by
  obtain ⟨mine, -, h⟩ := exists_of_bind h
  obtain ⟨echoed, -, h⟩ := exists_of_bind h
  cases h
  refine ⟨Nat.le_add_right place 10, le_rfl, fun c hc => ?_⟩
  rcases List.mem_pair.mp hc with rfl | rfl <;>
    exact Property.fitsIn_of_children_eq_nil (by dsimp only; omega) (by dsimp only; omega) rfl

/-- An option ends before the end of the header. -/
theorem of_option_eq_some (h : option v place stop = .ok (some (p, next))) :
    next ≤ stop ∧ p.FitsIn next := by
  obtain ⟨kind, -, h⟩ := exists_of_bind h
  split at h
  case h_1 => cases h
  case h_2 | h_5 =>
    obtain ⟨stop', hbounded, h⟩ := exists_of_bind h
    obtain ⟨rfl, hstop⟩ := of_bounded_eq_ok hbounded
    cases h
    exact ⟨hstop, fitsIn_bareOption (Nat.le_add_right ..)⟩
  case h_3 | h_4 =>
    obtain ⟨stop', hbounded, h⟩ := exists_of_bind h
    obtain ⟨rfl, hstop⟩ := of_bounded_eq_ok hbounded
    obtain ⟨value, -, h⟩ := exists_of_bind h
    cases h
    exact ⟨hstop, fitsIn_bareOption (Nat.le_add_right ..)⟩
  case h_6 =>
    obtain ⟨length, -, h⟩ := exists_of_bind h
    split at h
    · cases h
    · obtain ⟨stop', hbounded, h⟩ := exists_of_bind h
      obtain ⟨rfl, hstop⟩ := of_bounded_eq_ok hbounded
      obtain ⟨blocks, -, h⟩ := exists_of_bind h
      cases h
      exact ⟨hstop, fitsIn_bareOption (Nat.le_add_right ..)⟩
  case h_7 =>
    obtain ⟨stop', hbounded, h⟩ := exists_of_bind h
    obtain ⟨rfl, hstop⟩ := of_bounded_eq_ok hbounded
    obtain ⟨p', hp, h⟩ := exists_of_bind h
    cases h
    exact ⟨hstop, fitsIn_timestamps hp⟩
  case h_8 => cases h

theorem fitsIn_of_mem_optionsFrom {count : ℕ} (h : p ∈ (optionsFrom v stop count place).1) :
    p.FitsIn stop := by
  induction count generalizing place with
  | zero => simp [optionsFrom] at h
  | succ count ih =>
    rw [optionsFrom] at h
    split at h
    · split at h
      · next first next hoption =>
        obtain ⟨hstop, hfirst⟩ := of_option_eq_some hoption
        rcases List.mem_cons.mp h with rfl | h
        · exact hfirst.mono hstop
        · exact ih h
      · simp at h
      · simp at h
    · simp at h

theorem fitsIn_options (hstart : minHeaderLength ≤ stop) : (options v stop).FitsIn stop :=
  ⟨hstart, le_rfl, fun _ hc => fitsIn_of_mem_optionsFrom hc⟩

/-- A header whose length was accepted lies in the payload. -/
theorem of_checkLength_eq_ok (h : checkLength v = .ok ()) :
    ∃ words, headerWords v = .ok words ∧ minHeaderLength ≤ words * 4 ∧ words * 4 ≤ v.size := by
  obtain ⟨words, hwords, h⟩ := exists_of_bind h
  split at h
  · cases h
  · next hle => exact ⟨words, hwords, Nat.le_of_not_lt hle, require_fits h⟩

theorem grows_checkedOptions (v : ByteView) : Grows v.size (checked (checkLength v) (readOptions v)) := by
  refine .bind fun _ hcheck => .bind fun words hwords l m hm => ?_
  obtain ⟨words', hwords', hstart, hstop⟩ := of_checkLength_eq_ok hcheck
  obtain rfl : words = words' := Except.ok.inj (hwords.symm.trans hwords')
  cases hm
  exact ⟨[_], l.summary, l.streamId, by simpa using (fitsIn_options hstart).mono hstop, rfl⟩

theorem handsOn_carry (v : ByteView) : HandsOn v (Protocol.Kind.announces .tcp) (carry v) := by
  refine .bind fun words _ l m hm => ?_
  cases hm
  exact ⟨[], _, l.ns, by simp, ByteView.within_clamped v (words * 4) v.size, .inl rfl, by simp⟩

/-- The steps up to the payload, with the options read only where the header lies in it. -/
def headerSteps (parent : Layer) : List Step :=
  (steps parent).take 10 ++ [checked (checkLength parent.payload) (readOptions parent.payload)]

theorem dissect_eq (parent : Layer) :
    dissect parent = read "tcp" (headerSteps parent ++ [carry parent.payload]) parent :=
  run_checked ((steps parent).take 10) _ _ [carry parent.payload] _

theorem grows_headerSteps (parent : Layer) :
    ∀ step ∈ headerSteps parent, Grows parent.payload.size step := by
  simp [headerSteps, steps, grows_nameStream, grows_readFlags, grows_checkedOptions]

theorem leftBy_dissect (parent : Layer) :
    Layer.LeftBy "tcp" (Protocol.Kind.announces .tcp) parent (dissect parent) := by
  rw [dissect_eq]
  exact leftBy_read (grows_headerSteps parent) (handsOn_carry parent.payload)

end Tcp

/-! ### All of them -/

namespace Protocol

/-- **What a built-in dissector leaves behind.** -/
theorem Kind.leftBy_dissect (k : Kind) (parent : Layer) :
    Layer.LeftBy k.name k.announces parent (k.dissect parent) :=
  match k with
  | .ethernet => Ethernet.leftBy_dissect parent
  | .ipv4 => Ipv4.leftBy_dissect parent
  | .ipv6 => Ipv6.leftBy_dissect parent
  | .tcp => Tcp.leftBy_dissect parent
  | .udp => Udp.leftBy_dissect parent

end Protocol

end PacketTree
