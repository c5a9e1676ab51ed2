/-
# Server framing and the segmentation of the stream

TCP delivers a byte stream in chunks of its own choosing (`Cut`).  Where
`handleMessage` raises no exception, it should read the stream in one way only,
and leave no complete frame behind (`SegmentationFree`).

The loop leaves itself after an empty line (`break` in line 69 of
`bearTcpServer.cc`), so what stands behind an empty line in the same chunk stays
in the buffer until more bytes arrive.  `segmentationFree_iff` says that nothing
else can go wrong: the reading is independent of the segmentation exactly when
no complete item of the stream follows an empty line (`BlankLast`).
-/

import BearRpc.Server.Framing

namespace BearRpc

open Theory Connection

namespace BaseServer

variable {σ : Type} (parse : Bytes → Except String Json)
  (handleRequest : Bytes → CppM RpcException σ Unit) (x : σ)

/-- The chunks that make up the stream, none of them empty. -/
def Cut (stream : Bytes) (chunks : List Bytes) : Prop :=
  chunks.flatten = stream ∧ ∀ c ∈ chunks, c ≠ []

/-- A connection that received the chunks, `handleMessage` after each. -/
def received (chunks : List Bytes) : EStateM.Result (Abrupt RpcException) (Connection σ) Unit :=
  deliver (handleMessage parse handleRequest) chunks (init x)

/-- However the stream is cut, `handleMessage` raises no exception. -/
def Quiet (stream : Bytes) : Prop :=
  ∀ chunks, Cut stream chunks → ∃ c, received parse handleRequest x chunks = .ok () c

/-- A complete frame stands at the front of the bytes. -/
def FrameAtFront (s : Bytes) : Prop := ∃ n body, (rules parse).front s = .item n (.frame body)

/-- **Independence of the segmentation.**  Any two cuts of the stream lead to
the same calls of `handleRequest` and the same bytes in the buffer, and no call
of `handleMessage` leaves a complete frame at the front of the buffer. -/
def SegmentationFree (stream : Bytes) : Prop :=
  (∀ cs ds, Cut stream cs → Cut stream ds → ∃ c d,
    received parse handleRequest x cs = .ok () c ∧ received parse handleRequest x ds = .ok () d ∧
      c.calls = d.calls ∧ c.buffer.readable = d.buffer.readable) ∧
  ∀ chunks, Cut stream chunks → ∀ cs ds, chunks = cs ++ ds → ∃ c,
    received parse handleRequest x cs = .ok () c ∧ ¬ FrameAtFront parse c.buffer.readable

/-- No complete item of the stream, frame or empty line, follows an empty line. -/
def BlankLast (stream : Bytes) : Prop :=
  ∀ is js r, (rules parse).grammar.Parses stream (is ++ .blank :: js) r → js = []

variable {parse handleRequest x} {stream : Bytes}

/-- Where an empty line can only be the last thing of a stream, the loop is not left early
in the middle of it. -/
theorem pausesLast_of_blankLast (h : BlankLast parse stream) :
    (receiver parse handleRequest).PausesLast stream :=
  fun is i js r hs hp => h is js r (by rwa [show i = .blank from hp] at hs)

/-- Every stream can be cut into single bytes. -/
theorem cut_singletons (stream : Bytes) : Cut stream (stream.map fun b => [b]) := by
  refine ⟨by induction stream <;> simp_all, fun c hc => ?_⟩
  obtain ⟨b, -, rfl⟩ := List.mem_map.1 hc
  exact List.cons_ne_nil _ _

/-- A stream that is not empty may also come in one piece. -/
theorem cut_single (h : stream ≠ []) : Cut stream [stream] :=
  ⟨List.append_nil _, fun _ hc => List.mem_singleton.1 hc ▸ h⟩

/-- With pauses last, every run leaves the buffer settled. -/
theorem settled_of_blankLast (hlast : BlankLast parse stream) {cs : List Bytes} (ds : List Bytes)
    (hcut : Cut stream (cs ++ ds)) {c : Connection σ}
    (hc : received parse handleRequest x cs = .ok () c) :
    (rules parse).grammar.Settled c.buffer.readable := by
  obtain ⟨is, hfeed, -⟩ := feed_of_deliver handleMessage_simulates hc
  refine hfeed.settled ?_ PrefixGrammar.settled_nil
  rw [← hcut.1, List.flatten_append] at hlast
  exact (pausesLast_of_blankLast hlast).of_append

/-- Delivered at once, a stream is read to its first empty line; byte by byte, to
its end. -/
theorem blankLast_of_segmentationFree (h : SegmentationFree parse handleRequest x stream) :
    BlankLast parse stream := by
  intro is js r hs
  by_contra hjs
  have hne : stream ≠ [] := by
    rintro rfl
    have hlen := hs.length_le
    simp at hlen
  obtain ⟨c, d, hc, hd, -, hbytes⟩ := h.1 _ _ (cut_single hne) (cut_singletons stream)
  obtain ⟨_, hfc, -⟩ := feed_of_deliver handleMessage_simulates hc
  obtain ⟨_, hfd, -⟩ := feed_of_deliver handleMessage_simulates hd
  refine hfc.receive.not_settled hs rfl hjs ?_
  rw [hbytes]
  rcases hfd.settled_of_singletons (.inl rfl) with h | h
  · rw [h]
    exact PrefixGrammar.settled_nil
  · exact PrefixGrammar.settled_of_more h

/-- A stream that reads as items and then waits for more raises no exception, if
`handleRequest` does not. -/
theorem quiet_of_parses {js : List Item} {q : Bytes}
    (hjs : (rules parse).grammar.Parses stream js q) (hq : (rules parse).front q = .more)
    (hh : ∀ body, .frame body ∈ js → ∀ y, ∃ z, handleRequest body y = .ok () z) :
    Quiet parse handleRequest x stream := by
  intro chunks hcut
  have hsim : ∀ c, Simulates (receiver parse handleRequest) c
      (handleMessage parse handleRequest c) :=
    handleMessage_simulates
  obtain ⟨is, r, y, o, c, hfeed, -, -, -, hres⟩ := deliver_feed hsim chunks (init x)
  rw [← hcut.1] at hjs
  rw [readable_init] at hfeed
  obtain rfl := hfeed.returns hjs hq fun i hi z => by
    cases i with
    | blank => rfl
    | frame body =>
      obtain ⟨w, hw⟩ := hh body hi z
      simp only [receiver, serve, hw]
  exact ⟨c, hres⟩

/-- **When the server's reading is independent of the segmentation**: exactly
when no complete item of the stream follows an empty line. -/
theorem segmentationFree_iff (hquiet : Quiet parse handleRequest x stream) :
    SegmentationFree parse handleRequest x stream ↔ BlankLast parse stream := by
  refine ⟨blankLast_of_segmentationFree, fun hlast => ?_⟩
  refine ⟨fun cs ds hcs hds => ?_, fun chunks hcut cs ds hsplit => ?_⟩
  · obtain ⟨c, hc⟩ := hquiet cs hcs
    obtain ⟨d, hd⟩ := hquiet ds hds
    obtain ⟨is, hfc, hic⟩ := feed_of_deliver handleMessage_simulates hc
    obtain ⟨js, hfd, hjd⟩ := feed_of_deliver handleMessage_simulates hd
    have hpc := hfc.parses
    have hpd := hfd.parses
    rw [List.nil_append, hcs.1] at hpc
    rw [List.nil_append, hds.1] at hpd
    obtain ⟨rfl, hbytes⟩ := hpc.unique hpd
      (settled_of_blankLast hlast [] (by rwa [List.append_nil]) hc)
      (settled_of_blankLast hlast [] (by rwa [List.append_nil]) hd)
    exact ⟨c, d, hc, hd, hic.trans hjd.symm, hbytes⟩
  · subst hsplit
    obtain ⟨d, hd⟩ := hquiet _ hcut
    obtain ⟨c, hc⟩ := deliver_of_append hd
    refine ⟨c, hc, ?_⟩
    rintro ⟨n, body, hf⟩
    exact settled_of_blankLast hlast ds hcut hc n _ hf

/-- An empty line and a frame with the text `null`. -/
def blankThenNull : Bytes := [13, 10, 54, 13, 10, 110, 117, 108, 108, 13, 10]

/-- An empty line and then the frame of `null`. -/
theorem parses_blankThenNull : (rules readDecimalLine).grammar.Parses blankThenNull
    [.blank, .frame [110, 117, 108, 108, 13, 10]] [] := by
  have hblank : (rules readDecimalLine).front blankThenNull = .item 2 .blank :=
    FrameRules.front_item_of_blank _ (by decide) rfl
  refine .cons hblank ?_
  rw [show blankThenNull.drop 2 = frame [110, 117, 108, 108] by decide]
  exact (rules readDecimalLine).parses_frame readsDecimals_readDecimalLine
    (show kMaxMessageLen ≤ 2 ^ 31 by decide) (show 4 + 2 < kMaxMessageLen by decide)

/-- On this stream no handler fails. -/
theorem quiet_blankThenNull : Quiet readDecimalLine idle () blankThenNull :=
  quiet_of_parses parses_blankThenNull (FrameRules.front_nil _) fun _ _ _ => ⟨(), rfl⟩

/-- The hypothesis of `segmentationFree_iff` is satisfiable. -/
theorem segmentationFree_iff_blankThenNull :
    SegmentationFree readDecimalLine idle () blankThenNull ↔
      BlankLast readDecimalLine blankThenNull :=
  segmentationFree_iff quiet_blankThenNull

/-- **An empty line before a frame makes the segmentation matter**: delivered at
once, the frame stays in the buffer. -/
theorem not_segmentationFree_blankThenNull :
    Quiet readDecimalLine idle () blankThenNull ∧
      ¬ SegmentationFree readDecimalLine idle () blankThenNull :=
  ⟨quiet_blankThenNull, fun h => by
    have hjs := blankLast_of_segmentationFree h [] _ _ parses_blankThenNull
    cases hjs⟩

end BaseServer
end BearRpc
