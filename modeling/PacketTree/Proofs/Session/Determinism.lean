import PacketTree.Proofs.Protocol.Lineage
import PacketTree.Proofs.Session.Effort
import PacketTree.Session.Basic

/-!
# The result of a session does not depend on the schedule

However the turns of the producer, the contexts and the feeder are mixed, a session with the built-in
dissectors ends with the same frames: each packet is taken apart as if it were alone, and the streams
are put together segment by segment in the order of the frames.

## What is proved

* `standard_result`: for all settings, all packets and every schedule in which no stream is given up,
  the session comes to an end, and its result is that of the sequential reference.

## The model

The reference is `StreamDissector.sequential` over the frames that `alone` gives. `Agrees` says what a
session that was joined has to show: its frames, their numbers, and how far it says that it is.
-/

namespace PacketTree

variable {σ τ : Type}

namespace TcpStream

/-! ### What is found in streams -/

/-- Layers put together from streams are none that segments are taken from. -/
theorem selects_of_answer {timeout : ℕ} {midstream : Bool} {earlier : List Segment} {s : Segment}
    {l : Layer} (h : (dissector timeout midstream).answer earlier s = some l) :
    (dissector timeout midstream).selects l.ns = false := by
  have hns : l.ns = s.ns.push "stream" := by
    simp only [StreamDissector.answer, dissector, analyze] at h
    split at h
    · cases h
    · cases h
      rfl
  rw [hns]
  simp [StreamDissector.selects, dissector, Pattern.selects, Namespace.endsWith_singleton]

end TcpStream

namespace Session

/-! ### The traffic of a session -/

/-- The frames of packets, numbered from one on. -/
def framesOf (s : Session σ τ) (packets : List Packet) : List Frame :=
  packets.mapIdx fun i packet => s.frameOf (i + 1) packet

/-- A session that was started, with packets to push. -/
def traffic (s : Session σ τ) (packets : List Packet) : Traffic σ τ :=
  ⟨s.framesOf packets, s.pipeline⟩

/-- A session that was joined after some turns, all packets pushed. -/
def joinedAfter (s : Session σ τ) (packets : List Packet) (schedule : List Party) : Session σ τ :=
  { s with
    pushed := packets.length
    stage := .finished ((s.traffic packets).run schedule).pipeline }

/-- The session shows what taking apart one packet after the other gives. -/
structure Agrees (d : StreamDissector τ) (frames : List Frame) (s : Session σ τ) : Prop where
  /-- The frames have the layers found in them alone and those found in their streams. -/
  stored : s.store.frames.toList = d.sequential (fun _ => d.fresh) frames
  /-- They are numbered from one on. -/
  numbers : s.store.frames.toList.map Frame.index = List.range' 1 frames.length
  /-- None is missing. -/
  parked : s.store.parked = []
  /-- What was found in streams brought no more segments. -/
  segments : s.store.frames.toList.map (Segment.ofFrame [d]) = frames.map (Segment.ofFrame [d])
  /-- All packets were taken apart, -/
  safe : s.safeIndex = frames.length
  /-- and all streams worked on. -/
  streamSafe : s.streamSafeIndex = frames.length

variable {s : Session σ τ} {packets : List Packet}

theorem numbered_framesOf (s : Session σ τ) (packets : List Packet) :
    Frame.Numbered (s.framesOf packets) := by
  intro k f hf
  rw [framesOf, List.getElem?_mapIdx, Option.map_eq_some_iff] at hf
  obtain ⟨packet, -, rfl⟩ := hf
  rfl

theorem streamId_of_mem_framesOf {f : Frame} (hf : f ∈ s.framesOf packets) :
    ∀ l ∈ f.layers, l.streamId = none := by
  rw [framesOf, List.mem_mapIdx] at hf
  obtain ⟨i, hi, rfl⟩ := hf
  intro l hl
  rw [frameOf, Frame.ofRoot, Frame.layers, List.map_singleton, List.mem_singleton] at hl
  rw [hl]

theorem streamSafeIndex_of_streams {p : Pipeline σ τ} {stage : StreamStage τ}
    (hp : s.pipeline? = some p) (hstreams : p.streams = some stage) :
    s.streamSafeIndex = stage.progress.safe.1 := by
  rw [streamSafeIndex, hp, Option.bind_some, hstreams]
  rfl

/-- All segments of a packet are of one stream, since there is at most one. -/
theorem stream_eq_of_mem_ofFrame {ds : List (StreamDissector τ)} {f : Frame}
    (hle : (Segment.ofFrame ds f).length ≤ 1) :
    ∀ t ∈ Segment.ofFrame ds f, ∀ u ∈ Segment.ofFrame ds f, t.stream = u.stream := by
  intro t ht u hu
  match h : Segment.ofFrame ds f with
  | [] => rw [h] at ht; cases ht
  | [v] =>
    rw [h, List.mem_singleton] at ht hu
    rw [ht, hu]
  | v :: w :: rest => rw [h] at hle; simp at hle

/-- Nothing is lost at the start. -/
theorem sound_traffic {settings : Settings}
    (hfits : Memory.Fits settings.batchSize.toNat Pool.frameBytes) (machine : ℕ)
    (packets : List Packet) : ((standard settings machine).traffic packets).Sound (Protocol.builtin ())
      (TcpStream.dissector settings.idleTimeout settings.midstream) settings.threshold.clampUnit
      ((standard settings machine).framesOf packets) where
  room := hfits
  steady := Protocol.isSteady_builtin ()
  numbered := numbered_framesOf _ packets
  oneStream := by
    intro f hf
    obtain ⟨g, hg, rfl⟩ := List.mem_map.mp hf
    exact stream_eq_of_mem_ofFrame
      (Segment.length_ofFrame_alone_le _ _ () (streamId_of_mem_framesOf hg))
  threshold_eq := rfl
  contexts_pos := by simp [traffic, pipeline, Pool.create]
  pool := ⟨0, Pool.sound_create ..⟩
  line := Store.inLine_empty
  streams := ⟨_, _, rfl, StreamStage.sound_create ..⟩
  joining := nofun
  closed := nofun

/-- No stream is given up in a run that is shorter than the idle timeout. -/
theorem keepsAll_of_lt {settings : Settings}
    (hfits : Memory.Fits settings.batchSize.toNat Pool.frameBytes) {machine : ℕ}
    {packets : List Packet} {schedule : List Party}
    (hshort : ∀ i now, .actor (.stream i now) ∈ schedule → now < settings.idleTimeout) :
    ((standard settings machine).traffic packets).KeepsAll schedule :=
  (sound_traffic hfits machine packets).keepsAll fun i now hmem _ _ hidle =>
    decide_eq_false (Nat.not_le.mpr (hidle.trans_lt (hshort i now hmem)))

/-- A session whose work is done shows what taking apart one packet after the other gives. -/
theorem agrees_joinedAfter {settings : Settings}
    (hfits : Memory.Fits settings.batchSize.toNat Pool.frameBytes) {machine : ℕ}
    {packets : List Packet} {schedule : List Party}
    (hkeeps : ((standard settings machine).traffic packets).KeepsAll schedule)
    (hfinished : (((standard settings machine).traffic packets).run schedule).pipeline.Finished) :
    ((standard settings machine).joinedAfter packets schedule).Agrees
      (TcpStream.dissector settings.idleTimeout settings.midstream)
      (((standard settings machine).framesOf packets).map
        (alone settings.threshold.clampUnit (Protocol.builtin ()))) := by
  have hend := (sound_traffic hfits machine packets).run hkeeps
  obtain ⟨hstored, hparked, hsafe, hstreamSafe⟩ := hend.result hfinished
  have hnum := hend.stored_numbered
  have hlength : (((standard settings machine).framesOf packets).map
      (alone settings.threshold.clampUnit (Protocol.builtin ()))).length = _ := List.length_map _
  obtain ⟨stage, -, hstreams, -⟩ := hend.streams
  have hstored' : ((standard settings machine).joinedAfter packets schedule).store.frames.toList =
      (TcpStream.dissector settings.idleTimeout settings.midstream).sequential (fun _ =>
        (TcpStream.dissector settings.idleTimeout settings.midstream).fresh) _ := hstored
  have hstreamSafe' : ((standard settings machine).joinedAfter packets schedule).streamSafeIndex =
      stage.progress.safe.1 := streamSafeIndex_of_streams rfl hstreams
  refine ⟨hstored, ?_, hparked, ?_, hsafe.trans hlength.symm, ?_⟩
  · rw [hstored', StreamDissector.map_index_sequential _ hnum.nodup, hnum.map_index]
  · rw [hstored', StreamDissector.map_ofFrame_sequential _ hnum.nodup fun _ _ _ =>
      TcpStream.selects_of_answer]
  · rw [hstreamSafe', hstreamSafe stage hstreams, hlength]

/-- **The result of a session does not depend on the schedule.** Whatever the settings, if there is room
for the queues and for a batch of frames, and if the frames can be counted with 32 bits: the session
starts; in whatever order the producer, the contexts and the feeder take their turns, as long as no
stream is given up, the number of turns is bounded, someone can take a turn unless all have left, and
when all have left, the session shows what taking apart one packet after the other gives. -/
theorem standard_result (settings : Settings) (machine : ℕ) (packets : List Packet)
    (schedule : List Party) (hstart : (standard settings machine).CanStart)
    (hfits : Memory.Fits settings.batchSize.toNat Pool.frameBytes)
    (hcount : packets.length + 1 < UInt32.size)
    (hkeeps : ((standard settings machine).traffic packets).KeepsAll schedule) :
    let s := standard settings machine
    let d := TcpStream.dissector settings.idleTimeout settings.midstream
    let frames := (s.framesOf packets).map
      (alone settings.threshold.clampUnit (Protocol.builtin ()))
    let t := (s.traffic packets).run schedule
    s.start = some (.ok { s with stage := .running s.pipeline }) ∧
      (s.traffic packets).turns schedule ≤ (s.traffic packets).effort d frames ∧
      (¬t.pipeline.Finished → ∃ party, (t.step? party).isSome) ∧
      (t.pipeline.Finished → (s.joinedAfter packets schedule).Agrees d frames) := by
  intro s d frames t
  have hsound := sound_traffic hfits machine packets
  have hends : ∀ f ∈ s.framesOf packets,
      Dissection.Ends settings.threshold.clampUnit (Protocol.builtin ()) f := fun f _ =>
    (Protocol.alwaysEnds_builtin _ ()).ends f
  have hlength : (s.framesOf packets).length + 1 < UInt32.size := by
    rwa [framesOf, List.length_mapIdx]
  refine ⟨if_pos hstart, hsound.turns_le hkeeps, fun hnot => ?_, agrees_joinedAfter hfits hkeeps⟩
  by_contra hnone
  refine hnot ((hsound.run hkeeps).finished_of_stuck hends hlength fun party => ?_)
  rw [← Option.not_isSome_iff_eq_none]
  exact fun hsome => hnone ⟨party, hsome⟩

/-- A segment of TCP with some sequence number, flags and two bytes of data. -/
def segmentPacket (seq flags first second : UInt8) : Packet where
  timestamp := .epoch
  link := 1
  wireLength := 56
  data := [0, 0, 0, 0, 0, 0, 0, 0, 0, 0, 0, 0, 8, 0] ++
    [0x45, 0, 0, 42, 0, 0, 0, 0, 64, 6, 0, 0, 10, 0, 0, 1, 10, 0, 0, 2] ++
    [4, 0xd2, 0, 0x50, 0, 0, 0, seq, 0, 0, 0, 0, 0x50, flags, 0xff, 0xff, 0, 0, 0, 0, first, second]

/-- The first segment of a stream and the next one. -/
def greeting : List Packet := [segmentPacket 1 2 0x41 0x42, segmentPacket 4 0 0x43 0x44]

/-- Two contexts take one packet each, and the second packet comes out first. -/
def crossed : List Party :=
  List.replicate 4 .producer ++
    ([0, 1, 1, 0, 0, 1, 0, 1].map fun i => .actor (.dissector i)) ++ [.actor .joiner] ++
    List.replicate 13 (.actor .feeder) ++
    (List.range 16).map fun k => .actor (.stream (k % 2) 0)

/-- The session ends with all layers of both packets. -/
theorem standard_result_crossed :
    let settings : Settings := { concurrency := 2, streamConcurrency := 2, batchSize := 1 }
    let s := standard settings 1
    let d := TcpStream.dissector settings.idleTimeout settings.midstream
    let frames := (s.framesOf greeting).map
      (alone settings.threshold.clampUnit (Protocol.builtin ()))
    s.CanStart ∧ Memory.Fits settings.batchSize.toNat Pool.frameBytes ∧
      greeting.length + 1 < UInt32.size ∧ (s.traffic greeting).KeepsAll crossed ∧
      (s.joinedAfter greeting crossed).Agrees d frames ∧
      (s.joinedAfter greeting crossed).store.frames.toList.map (fun f => f.layers.map (·.ns.text)) =
        List.replicate 2
          ["*eth", "eth *ipv4", "eth ipv4 *tcp", "eth ipv4 tcp", "eth ipv4 tcp stream"] := by
  intro settings s d frames
  have hstart : s.CanStart := by decide +kernel
  have hfits : Memory.Fits settings.batchSize.toNat Pool.frameBytes := by decide +kernel
  have hcount : greeting.length + 1 < UInt32.size := by decide +kernel
  have hkeeps : (s.traffic greeting).KeepsAll crossed := keepsAll_of_lt hfits fun i now hmem => by
    have hnow : ∃ k < 16, k % 2 = i ∧ 0 = now := by simpa [crossed] using hmem
    obtain ⟨-, -, -, rfl⟩ := hnow
    decide
  have hfinished : ((s.traffic greeting).run crossed).pipeline.Finished := by decide +kernel
  obtain ⟨-, -, -, hagrees⟩ :=
    standard_result settings 1 greeting crossed hstart hfits hcount hkeeps
  exact ⟨hstart, hfits, hcount, hkeeps, hagrees hfinished, by decide +kernel⟩

/-- One context leaves, as there is no room for a batch, and then everyone else does. -/
def deserted : List Party :=
  List.replicate 3 .producer ++ [.actor (.dissector 0), .actor .joiner] ++
    List.replicate 4 (.actor .feeder) ++ [.actor (.stream 0 0)]

/-- **Without room for a batch nothing is stored**, although the session starts and comes to its end. -/
theorem not_standard_result :
    let s := standard { concurrency := 1, streamConcurrency := 1, batchSize := 0xFFFFFFFFFFFFFFFF } 1
    let packets := [segmentPacket 1 2 0x41 0x42]
    s.CanStart ∧ (∀ i now, .actor (.stream i now) ∈ deserted → now = 0) ∧
      ((s.traffic packets).run deserted).pipeline.Finished ∧
      (s.joinedAfter packets deserted).store.size = 0 ∧
      (s.joinedAfter packets deserted).safeIndex = 0 := by
  intro s packets
  refine ⟨by decide +kernel, fun i now hmem => ?_, by decide +kernel, by decide +kernel,
    by decide +kernel⟩
  have hnow : i = 0 ∧ now = 0 := by simpa [deserted] using hmem
  exact hnow.2

end Session

end PacketTree
