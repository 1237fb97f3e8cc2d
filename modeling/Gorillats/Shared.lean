import Gorillats.DecodeChunks
import Gorillats.Drift
import Gorillats.Machine
/-!
# Shared — reading a buffer that is still being written

Compressor and decompressor hold pointers into the caller's bytes, so a decompressor opened on a compressor's buffer
finds what the compressor has written by the time of each call.  What it has read stays where it was: the writer only
adds bits after those of the points acknowledged.  So the buffer is a log of acknowledged points, as a decoder receives
them, with a cursor for each reader (`Board`), in any interleaving of writes, opens and reads.
-/
namespace Gorillats

open BitString BitParser

variable {T : ValueType}

/-! ## One buffer, one writer, many readers -/

/-- What the caller holds: the compressor and the decompressors opened on its buffer. -/
structure Shared where
  writer  : Option GorillatsCompressor
  readers : List (Option GorillatsDecompressor)
deriving DecidableEq, Repr

inductive Act (T : ValueType) where
  | write (call : Call T)
  | openAt (len : Nat)
  | read (i : Nat) (call : DecodeCall)

inductive Answer (T : ValueType) where
  | wrote (rc : Status) (written : Nat)
  | opened (nonNull : Bool)
  | read (rc : Status) (pts : List (Point T))
deriving DecidableEq

/-- The decompressor on the bytes its pointer now leads to. -/
def GorillatsDecompressor.over (buf : List U8) (d : GorillatsDecompressor) : GorillatsDecompressor :=
  { d with r := { d.r with buf := buf.take d.r.cap } }

def Shared.step (ub : U64 → Int → U64) (T : ValueType) : Machine Shared (Act T) (Answer T)
  | s, .write call =>
    let (r, writer) := call.run s.writer
    (.wrote r.1 r.2, { s with writer := writer })
  | s, .openAt len =>
    let d := T.openStream (some ((bufferOf s.writer).take len))
    (.opened d.isSome, { s with readers := s.readers ++ [d] })
  | s, .read i call =>
    let (r, d) := call.run ub T ((s.readers.getD i none).map (·.over (bufferOf s.writer)))
    (.read r.1 r.2, { s with readers := s.readers.set i d })

/-! ## What it is for -/

/-- A reader of the first `len` bytes that has taken `taken` points. -/
structure Cursor where
  len   : Nat
  taken : Nat
deriving DecidableEq, Repr

/-- A log of points with cursors. -/
structure Board (T : ValueType) where
  fed     : List (Point T)
  cursors : List Cursor

/-- The points acknowledged so far whose codewords lie in the reader's bytes. -/
def Board.visible (t0 : I64) (b : Board T) (c : Cursor) : List (Point T) := fitting c.len t0 b.fed

def Board.step (cap : Nat) (t0 : I64) : Machine (Board T) (Act T) (Answer T)
  | b, .write call =>
    let fed := b.fed ++ call.points
    (.wrote (if 8 * cap < (stream T t0 fed).length then .errOverflow else .ok)
        ((fitting cap t0 fed).length - (fitting cap t0 b.fed).length),
      { b with fed := fed })
  | b, .openAt len => (.opened true, { b with cursors := b.cursors ++ [⟨len, 0⟩] })
  | b, .read i call =>
    let c := b.cursors.getD i ⟨0, 0⟩
    (.read .ok (((received t0 (b.visible t0 c)).drop c.taken).take call.size),
      { b with cursors := b.cursors.set i { c with taken := c.taken + call.size } })

/-- What the readers may do: open inside the buffer, and ask for no more points than are visible. -/
def Board.Permits (cap : Nat) (t0 : I64) (b : Board T) : Act T → Prop
  | .write _ => True
  | .openAt len => 8 ≤ len ∧ len ≤ cap
  | .read i call =>
    i < b.cursors.length ∧
      (b.cursors.getD i ⟨0, 0⟩).taken + call.size ≤ (b.visible t0 (b.cursors.getD i ⟨0, 0⟩)).length

/-! ## What a bit read preserves -/

section Preserves

variable {Q : GtReader → Prop} {α β : Type}

/-- The action leaves every reader that satisfies `Q` satisfying it. -/
def Preserves (Q : GtReader → Prop) (act : StateM GtReader α) : Prop := ∀ r, Q r → Q (act.run r).2

theorem preserves_pure (a : α) : Preserves Q (pure a : StateM GtReader α) := fun _ h => h

theorem preserves_get : Preserves Q get := fun _ h => h

theorem Preserves.bind {act : StateM GtReader α} {k : α → StateM GtReader β} (h : Preserves Q act)
    (hk : ∀ a, Preserves Q (k a)) : Preserves Q (act >>= k) := fun r hr => hk _ _ (h r hr)

theorem Preserves.ite {act act' : StateM GtReader α} {c : Prop} [Decidable c] (h : Preserves Q act)
    (h' : Preserves Q act') : Preserves Q (if c then act else act') := by
  by_cases hc : c
  · rwa [if_pos hc]
  · rwa [if_neg hc]

variable (hbit : Preserves Q gtGetBit)

include hbit

theorem preserves_getBitsFrom : ∀ (n : Nat) (v : U64), Preserves Q (gtGetBitsFrom v n)
  | 0, v => preserves_pure v
  | n + 1, _ => hbit.bind fun _ => preserves_getBitsFrom n _

theorem preserves_getBits (n : Nat) : Preserves Q (gtGetBits n) := preserves_getBitsFrom hbit n 0

theorem preserves_tsDecode (s : GtTsState) : Preserves Q (gtTsDecode s) := by
  have hsigned : ∀ n, Preserves Q (do return gtSignExtend (← gtGetBits n) n) :=
    fun n => (preserves_getBits hbit n).bind fun _ => preserves_pure _
  have hdod : Preserves Q gtReadDod :=
    hbit.bind fun _ => .ite (preserves_pure 0) <|
      hbit.bind fun _ => .ite (hsigned 7) <|
        hbit.bind fun _ => .ite (hsigned 9) <|
          hbit.bind fun _ => .ite (hsigned 12) (hsigned 32)
  exact hdod.bind fun _ => preserves_get.bind fun _ => .ite (preserves_pure _) (preserves_pure _)

theorem preserves_valDecode (ub : U64 → Int → U64) (s : GtValState) (width : Nat) :
    Preserves Q (gtValDecode ub s width) := by
  have hcheck : ∀ out out' : Except Status U64 × GtValState,
      Preserves Q (do if (← get).eof then return out else return out') :=
    fun _ _ => preserves_get.bind fun _ => .ite (preserves_pure _) (preserves_pure _)
  have hxor : Preserves Q (gtReadXor ub s width) :=
    hbit.bind fun _ => .ite ((preserves_getBits hbit _).bind fun _ => preserves_pure _) <|
      (preserves_getBits hbit 5).bind fun _ => (preserves_getBits hbit 6).bind fun _ =>
        (preserves_getBits hbit _).bind fun _ => preserves_pure _
  exact .ite ((preserves_getBits hbit width).bind fun _ => hcheck _ _) <|
    hbit.bind fun _ => .ite (hcheck _ _) (hxor.bind fun _ => hcheck _ _)

/-- **What a bit read preserves, a point read does**, whatever it answers. -/
theorem preserves_decodePoint (ub : U64 → Int → U64) (width : Nat) {d : GorillatsDecompressor} (h : Q d.r) :
    Q (decodePoint ub width d).2.r := by
  have hts := preserves_tsDecode hbit d.ts d.r h
  unfold decodePoint
  change Q (gtTsDecode d.ts d.r).2 at hts
  generalize gtTsDecode d.ts d.r = out at hts
  obtain ⟨⟨rc | ts, tss⟩, r⟩ := out
  · exact hts
  · have hval := preserves_valDecode hbit ub d.vs width r hts
    change Q (gtValDecode ub d.vs width r).2 at hval
    simp only
    generalize gtValDecode ub d.vs width r = out at hval
    obtain ⟨⟨rc | v, vss⟩, r'⟩ := out
    · exact hval
    · exact hval

theorem preserves_decompressLoop (ub : U64 → Int → U64) (width : Nat) : ∀ (n : Nat) {d : GorillatsDecompressor},
    Q d.r → Q (decompressLoop ub width n d).2.2.r
  | 0, _, h => h
  | n + 1, d, h => by
    have hd := preserves_decodePoint hbit ub width h
    rw [decompressLoop]
    generalize decodePoint ub width d = out at hd
    obtain ⟨rc | p, d'⟩ := out
    · exact hd
    · exact preserves_decompressLoop ub width n hd

end Preserves

/-! ## Calls on a live reader -/

section Calls

variable (ub : U64 → Int → U64) {d : GorillatsDecompressor} {st st' : CoderState} {bits rest : List Bool}
  {pts : List (Point T)}

/-- The batch loop repeats the parser. -/
theorem Live.loop (hrun : Run (pointParser ub T) st bits pts st' rest) {d : GorillatsDecompressor}
    (h : Live T d st bits) : ∃ raw d', decompressLoop ub T.width pts.length d = (raw, .ok, d') ∧
      raw.map (fun p => (p.1, T.ofBits p.2)) = pts ∧ Live T d' st' rest := by
  induction hrun generalizing d with
  | nil => exact ⟨[], d, rfl, rfl, h⟩
  | @cons _ _ _ _ _ _ p _ hp _ ih =>
    obtain ⟨b, d₁, hd, hb, hlive₁⟩ := h.decodePoint_some ub hp
    obtain ⟨raw, d', hloop, hraw, hlive⟩ := ih hlive₁
    refine ⟨(p.1, b) :: raw, d', ?_, by rw [List.map_cons, hraw, hb], hlive⟩
    rw [List.length_cons, decompressLoop, hd]
    simp only
    rw [hloop]

/-- **A call for points that are there** answers them, and preserves what a bit read does. -/
theorem Live.call (h : Live T d st bits) (hrun : Run (pointParser ub T) st bits pts st' rest) {call : DecodeCall}
    (hsize : pts.length = call.size) : ∃ d', call.run ub T (some d) = ((.ok, pts), some d') ∧ Live T d' st' rest ∧
      ∀ Q : GtReader → Prop, Preserves Q gtGetBit → Q d.r → Q d'.r := by
  cases call with
  | next =>
    obtain ⟨p, rfl⟩ := List.length_eq_one_iff.1 hsize
    cases hrun with
    | cons hp hnil =>
      cases hnil
      obtain ⟨b, d', hd, hb, hlive⟩ := h.decodePoint_some ub hp
      have hnext := next_of_decodePoint ub h.width hd
      refine ⟨d', ?_, hlive, fun Q hQ hr => ?_⟩
      · rw [DecodeCall.run, hnext, Except.map, hb]
      · have hpres := preserves_decodePoint hQ ub T.width hr
        rwa [hd] at hpres
  | batch n =>
    obtain ⟨raw, d', hloop, hraw, hlive⟩ := h.loop ub hrun
    have hn : pts.length = n := hsize
    refine ⟨d', ?_, hlive, fun Q hQ hr => ?_⟩
    · rw [DecodeCall.run, ValueType.decodeBatch_some ub h.width, ← hn, hloop, ← hraw, List.length_map]
      simp
    · have hpres := preserves_decompressLoop hQ ub T.width pts.length hr
      rwa [hloop] at hpres

end Calls

/-! ## Where a reader stands -/

/-- The reader stands inside the bytes. -/
structure Within (buf : List U8) (r : GtReader) : Prop where
  bytes  : r.buf = buf
  cap    : r.cap = buf.length
  bitPos : r.bitPos < 8
  pos    : 8 * r.bytePos + r.bitPos ≤ 8 * buf.length

theorem preserves_within (buf : List U8) : Preserves (Within buf) gtGetBit := by
  rintro r ⟨hbuf, hcap, hbit, hpos⟩
  change Within buf (gtGetBit r).2
  unfold gtGetBit
  by_cases hend : r.cap ≤ r.bytePos
  · rw [if_pos hend]
    exact ⟨hbuf, hcap, hbit, hpos⟩
  · rw [if_neg hend]
    by_cases h8 : r.bitPos + 1 = 8
    · simp only [if_pos h8]
      exact ⟨hbuf, hcap, Nat.zero_lt_succ 7, by simp only; omega⟩
    · simp only [if_neg h8]
      exact ⟨hbuf, hcap, by simp only; omega, by simp only; omega⟩

/-- The bits still to come say where the reader stands. -/
theorem Within.pos_eq {buf : List U8} {r : GtReader} {bits : List Bool} (h : Within buf r) (hr : Reads r bits) :
    8 * r.bytePos + r.bitPos + bits.length = 8 * buf.length := by
  have hlen := congrArg List.length hr.rest
  rw [List.length_drop, length_unpack, h.bytes] at hlen
  have := h.pos
  omega

theorem Within.getBits {buf : List U8} {r : GtReader} (h : Within buf r) (n : Nat) :
    Within buf (gtGetBits n r).2 := preserves_getBits (preserves_within buf) n r h

theorem within_open {data : List U8} {d : GorillatsDecompressor} (h : T.openStream (some data) = some d) :
    Within data d.r := by
  have hinit : Within data (gtReaderInit data data.length) := ⟨rfl, rfl, Nat.zero_lt_succ 7, Nat.zero_le _⟩
  have hin := hinit.getBits 64
  rw [T.open_eq, gtDecompressorCreate] at h
  generalize gtGetBits 64 (gtReaderInit data data.length) = out at h hin
  by_cases h8 : data.length < 8
  · rw [if_pos h8] at h
    cases h
  · rw [if_neg h8] at h
    cases h
    exact hin

/-! ## The buffer under a reader -/

section View

variable {init : List U8} {t0 : I64} {fed : List (Point T)} {w : GorillatsCompressor}

theorem fitting_isPrefix (cap : Nat) (t0 : I64) (pts : List (Point T)) : fitting cap t0 pts <+: pts :=
  (pointCoder T).fitting_isPrefix _ _ _

theorem fitting_isPrefix_append (cap : Nat) (t0 : I64) (as bs : List (Point T)) :
    fitting cap t0 as <+: fitting cap t0 (as ++ bs) := (pointCoder T).fitting_isPrefix_append _ _ as bs

theorem fitting_isPrefix_of_le {m cap : Nat} (h : m ≤ cap) (t0 : I64) (pts : List (Point T)) :
    fitting m t0 pts <+: fitting cap t0 pts := (pointCoder T).fitting_isPrefix_of_le _ _ (by omega)

/-- The buffer starts with the bits of the stream that fit. -/
theorem Encodes.isPrefix_unpack_buf (h : Encodes T init t0 fed w) :
    (stream T t0 fed).take (8 * init.length) <+: unpack w.w.buf := by
  have hsplit : streamBytes (some w) ++ w.w.buf.drop (gtWriterLen w.w) = w.w.buf := List.take_append_drop _ _
  rw [← hsplit, unpack_append, h.unpack_streamBytes, List.append_assoc]
  exact List.prefix_append _ _

/-- **The first `m` bytes of the writer's buffer** start with the points that fit there, whatever the buffer held and
whatever byte is half written. -/
theorem Encodes.unpack_view (h : Encodes T init t0 fed w) {m : Nat} (h8 : 8 ≤ m) (hm : m ≤ init.length) :
    ∃ more, unpack (w.w.buf.take m) =
      toBits 64 t0.toNat ++ ((pointCoder T).codes (startState t0) (fitting m t0 fed) ++ more) := by
  have hfit : stream T t0 (fitting m t0 fed) <+: (stream T t0 fed).take (8 * init.length) := by
    refine List.prefix_take_iff.2 ⟨?_, ?_⟩
    · unfold stream
      rw [List.prefix_append_right_inj]
      exact (pointCoder T).codes_isPrefix _ (fitting_isPrefix m t0 fed)
    · have := stream_fitting_le t0 h8 fed
      omega
  have hlen := stream_fitting_le t0 h8 fed
  obtain ⟨more, hmore⟩ := List.prefix_take_iff.2 ⟨hfit.trans h.isPrefix_unpack_buf, hlen⟩
  refine ⟨more, ?_⟩
  rw [unpack_take, ← hmore, stream, List.append_assoc]

end View

/-! ## A reader of a growing buffer -/

/-- **The reader stands right after the points it has taken**, in the state of a decoder that has read them. -/
structure Follows (T : ValueType) (cap : Nat) (t0 : I64) (fed : List (Point T)) (g : GorillatsDecompressor)
    (c : Cursor) : Prop where
  opened : 8 ≤ c.len ∧ c.len ≤ cap
  cap    : g.r.cap = c.len
  bitPos : g.r.bitPos < 8
  eof    : g.r.eof = false
  pos    : 8 * g.r.bytePos + g.r.bitPos = (stream T t0 ((fitting c.len t0 fed).take c.taken)).length
  state  : ({ ts := g.ts, vs := g.vs } : CoderState) = readState t0 ((fitting c.len t0 fed).take c.taken)
  width  : g.width = T.width
  taken  : c.taken ≤ (fitting c.len t0 fed).length

section Follows

variable {init : List U8} {t0 : I64} {fed : List (Point T)} {w : GorillatsCompressor} {g : GorillatsDecompressor}
  {c : Cursor}

/-- What is fed later moves no reader. -/
theorem Follows.mono {cap : Nat} (h : Follows T cap t0 fed g c) (more : List (Point T)) :
    Follows T cap t0 (fed ++ more) g c := by
  have hpre := fitting_isPrefix_append c.len t0 fed more
  have htake : (fitting c.len t0 (fed ++ more)).take c.taken = (fitting c.len t0 fed).take c.taken := by
    obtain ⟨tail, htail⟩ := hpre
    rw [← htail, List.take_append_of_le_length h.taken]
  refine ⟨h.opened, h.cap, h.bitPos, h.eof, ?_, ?_, h.width, Nat.le_trans h.taken hpre.length_le⟩
  · rw [htake, h.pos]
  · rw [htake, h.state]

/-- **Over the writer's buffer the reader is live**, with the visible points it has not taken still to come. -/
theorem Follows.live (h : Follows T init.length t0 fed g c) (henc : Encodes T init t0 fed w) :
    ∃ more, Live T (g.over w.w.buf) (readState t0 ((fitting c.len t0 fed).take c.taken))
        ((pointCoder T).codes ((pointCoder T).after (startState t0) ((fitting c.len t0 fed).take c.taken))
          ((fitting c.len t0 fed).drop c.taken) ++ more) ∧
      Within (w.w.buf.take c.len) (g.over w.w.buf).r := by
  obtain ⟨h8, hle⟩ := h.opened
  obtain ⟨more, hview⟩ := henc.unpack_view h8 hle
  have hlen : (w.w.buf.take c.len).length = c.len := by
    rw [List.length_take, henc.writes.length]
    omega
  have hbuf : (g.over w.w.buf).r.buf = w.w.buf.take c.len := by
    change w.w.buf.take g.r.cap = _
    rw [h.cap]
  -- the view is the stream of the points taken, and the codewords after it
  have hbits : unpack (w.w.buf.take c.len) = stream T t0 ((fitting c.len t0 fed).take c.taken) ++
      ((pointCoder T).codes ((pointCoder T).after (startState t0) ((fitting c.len t0 fed).take c.taken))
        ((fitting c.len t0 fed).drop c.taken) ++ more) := by
    rw [hview, ← List.append_assoc, ← List.append_assoc, ← stream_append, List.take_append_drop]
    rfl
  have hpos := h.pos
  have hfits := congrArg List.length hbits
  rw [length_unpack, hlen, List.length_append] at hfits
  refine ⟨more, ⟨⟨?_, h.bitPos, ?_, h.eof⟩, h.state, h.width⟩, hbuf, ?_, h.bitPos, ?_⟩
  · rw [hbuf, hlen]
    exact h.cap
  · rw [hbuf, hbits]
    exact List.drop_left' hpos.symm
  · rw [hlen]
    exact h.cap
  · change 8 * g.r.bytePos + g.r.bitPos ≤ _
    rw [hlen]
    omega

/-- **A read of visible points** answers the next ones, and the reader stands after them. -/
theorem Follows.read (ub : U64 → Int → U64) (h : Follows T init.length t0 fed g c) (henc : Encodes T init t0 fed w)
    {call : DecodeCall} (hsize : c.taken + call.size ≤ (fitting c.len t0 fed).length) :
    ∃ g', call.run ub T (some (g.over w.w.buf)) =
        ((.ok, ((received t0 (fitting c.len t0 fed)).drop c.taken).take call.size), some g') ∧
      Follows T init.length t0 fed g' { c with taken := c.taken + call.size } := by
  obtain ⟨more, hlive, hwithin⟩ := h.live henc
  have hlen : (w.w.buf.take c.len).length = c.len := by
    rw [List.length_take, henc.writes.length]
    exact Nat.min_eq_left h.opened.2
  have htaken : (fitting c.len t0 fed).take (c.taken + call.size) =
      (fitting c.len t0 fed).take c.taken ++ ((fitting c.len t0 fed).drop c.taken).take call.size := List.take_add
  have hsplit : (fitting c.len t0 fed).drop c.taken = ((fitting c.len t0 fed).drop c.taken).take call.size ++
      ((fitting c.len t0 fed).drop c.taken).drop call.size := (List.take_append_drop ..).symm
  rw [hsplit, BitCoder.codes_append, List.append_assoc] at hlive
  have hrun := run_received_append ub t0 ((fitting c.len t0 fed).take c.taken)
    (((fitting c.len t0 fed).drop c.taken).take call.size)
  -- what the decoder answers is the log as it is received
  have hanswer : (received t0 ((fitting c.len t0 fed).take (c.taken + call.size))).drop
      ((fitting c.len t0 fed).take c.taken).length = ((received t0 (fitting c.len t0 fed)).drop c.taken).take call.size := by
    rw [received_take, List.length_take, Nat.min_eq_left h.taken, List.drop_take, Nat.add_sub_cancel_left]
  rw [← htaken, hanswer] at hrun
  have hn : (((received t0 (fitting c.len t0 fed)).drop c.taken).take call.size).length = call.size := by
    rw [List.length_take, List.length_drop, length_received]
    omega
  obtain ⟨g', hcall, hlive', hpres⟩ := hlive.call ub (hrun _) hn
  have hwithin' := hpres _ (preserves_within _) hwithin
  have hbefore := hwithin.pos_eq hlive.reads
  have hafter := hwithin'.pos_eq hlive'.reads
  refine ⟨g', hcall, h.opened, ?_, hwithin'.bitPos, hlive'.reads.eof, ?_, hlive'.state, hlive'.width, hsize⟩
  · rw [hwithin'.cap, hlen]
  · have hpos := h.pos
    rw [List.length_append] at hbefore
    change 8 * g.r.bytePos + g.r.bitPos + _ = _ at hbefore
    rw [htaken, stream_append, List.length_append]
    omega

/-- **A decompressor opened on the writer's buffer** stands after the header. -/
theorem Follows.opening (henc : Encodes T init t0 fed w) {len : Nat} (h8 : 8 ≤ len) (hle : len ≤ init.length) :
    ∃ g, T.openStream (some (w.w.buf.take len)) = some g ∧ Follows T init.length t0 fed g ⟨len, 0⟩ := by
  obtain ⟨more, hview⟩ := henc.unpack_view h8 hle
  obtain ⟨g, hopen, hlive⟩ := open_live (T := T) hview
  have hwithin := within_open hopen
  have hlen : (w.w.buf.take len).length = len := by
    rw [List.length_take, henc.writes.length]
    exact Nat.min_eq_left hle
  have hpos := hwithin.pos_eq hlive.reads
  have htotal := congrArg List.length hview
  rw [length_unpack, List.length_append, length_toBits] at htotal
  refine ⟨g, hopen, ⟨h8, hle⟩, ?_, hwithin.bitPos, hlive.reads.eof, ?_, hlive.state, hlive.width, Nat.zero_le _⟩
  · rw [hwithin.cap, hlen]
  · rw [List.take_zero, length_stream]
    change _ = 64 + 0
    omega

end Follows

/-! ## The simulation -/

/-- **The caller's handles serve the board**: the writer holds the log's stream, each reader follows its cursor. -/
structure Serves (T : ValueType) (init : List U8) (t0 : I64) (s : Shared) (b : Board T) : Prop where
  writer  : ∃ w, s.writer = some w ∧ Encodes T init t0 b.fed w
  length  : s.readers.length = b.cursors.length
  readers : ∀ (i : Nat) (c : Cursor), b.cursors[i]? = some c →
    ∃ g, s.readers[i]? = some (some g) ∧ Follows T init.length t0 b.fed g c

theorem serves_start {init : List U8} (t0 : I64) (h8 : 8 ≤ init.length) :
    Serves T init t0 ⟨T.create (some init) t0, []⟩ ⟨[], []⟩ := by
  obtain ⟨w, hw, henc⟩ := encodes_create (T := T) init t0 h8
  exact ⟨⟨w, hw, henc⟩, rfl, fun i c hc => by simp at hc⟩

section Steps

variable {init : List U8} {t0 : I64} {s : Shared} {b : Board T} (ub : U64 → Int → U64)

theorem Serves.write (h : Serves T init t0 s b) (h8 : 8 ≤ init.length) (call : Call T) :
    (Shared.step ub T s (.write call)).1 = (Board.step init.length t0 b (.write call)).1 ∧
      Serves T init t0 (Shared.step ub T s (.write call)).2 (Board.step init.length t0 b (.write call)).2 := by
  obtain ⟨w, hw, henc⟩ := h.writer
  obtain ⟨r, w', hrun, henc', hrc, hle, hfit⟩ := henc.call h8 call
  have hwritten : r.2 = (fitting init.length t0 (b.fed ++ call.points)).length - (fitting init.length t0 b.fed).length := by
    rw [hfit, List.length_append, List.length_take, Nat.min_eq_left hle, Nat.add_sub_cancel_left]
  simp only [Shared.step, Board.step, hw, hrun]
  refine ⟨by rw [hrc, hwritten], ⟨w', rfl, henc'⟩, h.length, fun i c hc => ?_⟩
  obtain ⟨g, hg, hfollows⟩ := h.readers i c hc
  exact ⟨g, hg, hfollows.mono call.points⟩

theorem Serves.openAt (h : Serves T init t0 s b) {len : Nat} (h8 : 8 ≤ len) (hle : len ≤ init.length) :
    (Shared.step ub T s (.openAt len)).1 = (Board.step init.length t0 b (.openAt len)).1 ∧
      Serves T init t0 (Shared.step ub T s (.openAt len)).2 (Board.step init.length t0 b (.openAt len)).2 := by
  obtain ⟨w, hw, henc⟩ := h.writer
  obtain ⟨g, hopen, hfollows⟩ := Follows.opening henc h8 hle
  simp only [Shared.step, Board.step, hw, bufferOf, hopen]
  refine ⟨rfl, ⟨w, rfl, henc⟩, by simp [h.length], fun i c hc => ?_⟩
  simp only at hc ⊢
  rcases Nat.lt_or_ge i b.cursors.length with hi | hi
  · rw [List.getElem?_append_left hi] at hc
    rw [List.getElem?_append_left (by rw [h.length]; exact hi)]
    exact h.readers i c hc
  · -- the reader just opened
    rw [List.getElem?_append_right hi, List.getElem?_singleton] at hc
    split at hc
    · cases hc
      rename_i hzero
      refine ⟨g, ?_, hfollows⟩
      rw [List.getElem?_append_right (by rw [h.length]; exact hi), h.length, hzero]
      rfl
    · cases hc

theorem Serves.read (h : Serves T init t0 s b) {i : Nat} {call : DecodeCall}
    (hok : b.Permits init.length t0 (.read i call)) :
    (Shared.step ub T s (.read i call)).1 = (Board.step init.length t0 b (.read i call)).1 ∧
      Serves T init t0 (Shared.step ub T s (.read i call)).2 (Board.step init.length t0 b (.read i call)).2 := by
  obtain ⟨w, hw, henc⟩ := h.writer
  obtain ⟨hi, hsize⟩ := hok
  obtain ⟨g, hg, hfollows⟩ := h.readers i _ (List.getElem?_eq_getElem hi)
  have hcursor : b.cursors.getD i ⟨0, 0⟩ = b.cursors[i] := by
    rw [List.getD_eq_getElem?_getD, List.getElem?_eq_getElem hi, Option.getD_some]
  have hreader : s.readers.getD i none = some g := by
    rw [List.getD_eq_getElem?_getD, hg, Option.getD_some]
  rw [hcursor] at hsize
  obtain ⟨g', hcall, hfollows'⟩ := hfollows.read ub henc hsize
  simp only [Shared.step, Board.step, hw, bufferOf, hreader, Option.map_some, hcall, hcursor]
  refine ⟨rfl, ⟨w, rfl, henc⟩, by simp [h.length], fun j c hc => ?_⟩
  simp only at hc ⊢
  by_cases hij : i = j
  · subst hij
    rw [List.getElem?_set_self (by rw [h.length]; exact hi)]
    rw [List.getElem?_set_self hi] at hc
    cases hc
    exact ⟨g', rfl, hfollows'⟩
  · rw [List.getElem?_set_ne hij] at hc ⊢
    exact h.readers j c hc

/-- **Every permitted step is the board's.** -/
theorem shared_simulates (h8 : 8 ≤ init.length) : Machine.Simulates (Shared.step ub T) (Board.step init.length t0)
    (Board.Permits init.length t0) (Serves T init t0) := by
  intro s b act h hok
  cases act with
  | write call => exact h.write ub h8 call
  | openAt len => exact h.openAt ub hok.1 hok.2
  | read i call => exact h.read ub hok

end Steps

/-! ## What the readers are given -/

/-- The points reader `i` is given in a run. -/
def readBy (i : Nat) : List (Act T) → List (Answer T) → List (Point T)
  | .read j _ :: acts, .read _ pts :: answers => (if j = i then pts else []) ++ readBy i acts answers
  | _ :: acts, _ :: answers => readBy i acts answers
  | _, _ => []

/-- The points the writer's answers acknowledge. -/
def ackedBy : List (Act T) → List (Answer T) → List (Point T)
  | .write call :: acts, .wrote _ written :: answers => call.points.take written ++ ackedBy acts answers
  | _ :: acts, _ :: answers => ackedBy acts answers
  | _, _ => []

/-- What is fed later is acknowledged as far as it fits behind the rest. -/
theorem fitting_append {cap : Nat} {t0 : I64} (h8 : 8 ≤ cap) (as bs : List (Point T)) :
    fitting cap t0 (as ++ bs) = fitting cap t0 as ++
      bs.take ((fitting cap t0 (as ++ bs)).length - (fitting cap t0 as).length) := by
  rcases Nat.lt_or_ge (8 * cap) (stream T t0 as).length with hlt | hle
  · rw [fitting_append_of_lt bs h8 hlt, Nat.sub_self, List.take_zero, List.append_nil]
  · obtain ⟨tail, htail⟩ := fitting_isPrefix_append cap t0 as bs
    have hpre := fitting_isPrefix cap t0 (as ++ bs)
    rw [← htail, fitting_of_le hle, List.prefix_append_right_inj] at hpre
    rw [← htail, fitting_of_le hle, List.length_append, Nat.add_sub_cancel_left, ← List.prefix_iff_eq_take.1 hpre]

theorem Board.acked_run {cap : Nat} {t0 : I64} (h8 : 8 ≤ cap) : ∀ (acts : List (Act T)) (b : Board T),
    fitting cap t0 ((Board.step cap t0).run b acts).2.fed =
      fitting cap t0 b.fed ++ ackedBy acts ((Board.step cap t0).run b acts).1
  | [], b => (List.append_nil _).symm
  | .write call :: acts, b => by
    rw [Machine.run_cons, ackedBy.eq_def]
    simp only [Board.step]
    rw [Board.acked_run h8 acts, ← List.append_assoc, ← fitting_append h8]
  | .openAt len :: acts, b => Board.acked_run h8 acts _
  | .read i call :: acts, b => Board.acked_run h8 acts _

/-- The cursor of reader `i`, that of a reader of no bytes before it is opened. -/
def Board.cursor (b : Board T) (i : Nat) : Cursor := b.cursors.getD i ⟨0, 0⟩

/-- No cursor is past the points visible to it, nor past the buffer. -/
def Board.Sound (cap : Nat) (t0 : I64) (b : Board T) : Prop :=
  ∀ i, (b.cursor i).len ≤ cap ∧ (b.cursor i).taken ≤ (b.visible t0 (b.cursor i)).length

section Cursors

variable {cap : Nat} {t0 : I64} {b : Board T}

theorem Board.cursor_openAt (b : Board T) (len i : Nat) :
    (Board.step cap t0 b (.openAt len)).2.cursor i = b.cursor i ∨
      (Board.step cap t0 b (.openAt len)).2.cursor i = ⟨len, 0⟩ ∧ (b.cursor i).taken = 0 := by
  unfold Board.cursor
  rcases Nat.lt_or_ge i b.cursors.length with hi | hi
  · exact .inl (List.getD_append _ _ _ _ hi)
  · have hright := List.getD_append_right b.cursors [⟨len, 0⟩] ⟨0, 0⟩ i hi
    rw [List.getD_eq_default b.cursors _ hi]
    refine (em (i = b.cursors.length)).symm.imp (fun hne => hright.trans ?_) fun heq => ⟨hright.trans ?_, rfl⟩
    · exact List.getD_eq_default _ _ (by simp; omega)
    · rw [heq, Nat.sub_self]
      rfl

theorem Board.cursor_read (b : Board T) {j : Nat} (hj : j < b.cursors.length) (call : DecodeCall) (i : Nat) :
    (Board.step cap t0 b (.read j call)).2.cursor i =
      if j = i then { b.cursor j with taken := (b.cursor j).taken + call.size } else b.cursor i := by
  change (b.cursors.set j _).getD i _ = _
  rw [List.getD_eq_getElem?_getD, List.getElem?_set]
  by_cases hij : j = i
  · rw [if_pos hij, if_pos hij, if_pos hj]
    rfl
  · rw [if_neg hij, if_neg hij, ← List.getD_eq_getElem?_getD]
    rfl

theorem Board.Sound.step (h : b.Sound cap t0) {act : Act T} (hok : b.Permits cap t0 act) :
    (Board.step cap t0 b act).2.Sound cap t0 := by
  intro i
  cases act with
  | write call =>
    obtain ⟨hlen, htaken⟩ := h i
    exact ⟨hlen, Nat.le_trans htaken (fitting_isPrefix_append _ t0 b.fed call.points).length_le⟩
  | openAt len =>
    rcases b.cursor_openAt len i with heq | ⟨heq, -⟩
    · rw [heq]
      exact h i
    · rw [heq]
      exact ⟨hok.2, Nat.zero_le _⟩
  | read j call =>
    obtain ⟨hj, hsize⟩ := hok
    rw [b.cursor_read hj]
    by_cases hij : j = i
    · rw [if_pos hij]
      exact ⟨(h j).1, hsize⟩
    · rw [if_neg hij]
      exact h i

/-- What reader `i` has taken. -/
def Board.given (t0 : I64) (b : Board T) (i : Nat) : List (Point T) :=
  (received t0 (b.visible t0 (b.cursor i))).take (b.cursor i).taken

/-- **A step gives the readers what it answers them**, and nothing else. -/
theorem Board.Sound.given_step (h : b.Sound cap t0) {act : Act T} (hok : b.Permits cap t0 act) (i : Nat) :
    (Board.step cap t0 b act).2.given t0 i = b.given t0 i ++ readBy i [act] [(Board.step cap t0 b act).1] := by
  unfold Board.given
  cases act with
  | write call =>
    obtain ⟨tail, htail⟩ := received_isPrefix t0 (fitting_isPrefix_append (b.cursor i).len t0 b.fed call.points)
    change (received t0 (fitting (b.cursor i).len t0 (b.fed ++ call.points))).take (b.cursor i).taken = _ ++ []
    rw [← htail, List.append_nil]
    exact List.take_append_of_le_length ((h i).2.trans_eq (length_received t0 _).symm)
  | openAt len =>
    change _ = _ ++ []
    rw [List.append_nil]
    rcases b.cursor_openAt len i with heq | ⟨heq, hzero⟩
    · rw [heq]
      rfl
    · rw [heq, hzero]
      rfl
  | read j call =>
    obtain ⟨hj, -⟩ := hok
    rw [b.cursor_read hj]
    change (received t0 (b.visible t0 _)).take _ = _ ++ ((if j = i then _ else []) ++ [])
    by_cases hij : j = i
    · subst hij
      rw [if_pos rfl, if_pos rfl, List.append_nil]
      exact List.take_add
    · rw [if_neg hij, if_neg hij, List.append_nil, List.append_nil]

theorem readBy_cons (i : Nat) (act : Act T) (acts : List (Act T)) (answer : Answer T) (answers : List (Answer T)) :
    readBy i (act :: acts) (answer :: answers) = readBy i [act] [answer] ++ readBy i acts answers := by
  cases act <;> cases answer <;> simp [readBy]

/-- **A reader is given the acknowledged points in order**, as they are received. -/
theorem Board.read_run : ∀ (acts : List (Act T)) {b : Board T}, b.Sound cap t0 →
    (Board.step cap t0).Allows (Board.Permits cap t0) b acts → ∀ i,
    b.given t0 i ++ readBy i acts ((Board.step cap t0).run b acts).1 <+:
      received t0 (fitting cap t0 ((Board.step cap t0).run b acts).2.fed)
  | [], b, h, _, i => by
    rw [readBy.eq_def, List.append_nil]
    exact (List.take_prefix _ _).trans (received_isPrefix t0 (fitting_isPrefix_of_le (h i).1 t0 b.fed))
  | act :: acts, b, h, hok, i => by
    have hnext := Board.read_run acts (h.step hok.1) hok.2 i
    rw [h.given_step hok.1, List.append_assoc, ← readBy_cons] at hnext
    exact hnext

end Cursors

/-- What is received of points of which the first are in range starts with those. -/
theorem isPrefix_of_received {t0 : I64} {pts out : List (Point T)} (h : out <+: received t0 pts)
    (hdod : ∀ d ∈ deltaOfDeltas t0 ((pts.take out.length).map (·.1)), InRange d) : out <+: pts := by
  have hout := List.prefix_iff_eq_take.1 h
  rw [← received_take, received_of_inRange hdod] at hout
  rw [hout]
  exact List.take_prefix _ _

/-- **A buffer can be read while it is written.**  In any interleaving of compressor calls, decompressors opened on the
first bytes of the compressor's own buffer, and reads of points acknowledged by then inside those bytes, every answer is
the board's: a read succeeds with the next acknowledged points, as they are received.  So what a reader is given in the
run is a prefix of what the writer's answers acknowledge, with their drift, and of those points themselves where the
delta-of-deltas fit 32 bits. -/
theorem live_readers (ub : U64 → Int → U64) {buf : List U8} (t0 : I64) (h8 : 8 ≤ buf.length) {acts : List (Act T)}
    (hok : (Board.step buf.length t0).Allows (Board.Permits buf.length t0) ⟨[], []⟩ acts) :
    let answers := (Machine.run (Shared.step ub T) ⟨T.create (some buf) t0, []⟩ acts).1
    answers = ((Board.step buf.length t0).run ⟨[], []⟩ acts).1 ∧
      ∀ i, readBy i acts answers <+: received t0 (ackedBy acts answers) ∧
        ((∀ d ∈ deltaOfDeltas t0 (((ackedBy acts answers).take (readBy i acts answers).length).map (·.1)), InRange d) →
          readBy i acts answers <+: ackedBy acts answers) := by
  intro answers
  have hanswers : answers = _ := ((shared_simulates ub h8).run acts (serves_start t0 h8) hok).1
  refine ⟨hanswers, fun i => ?_⟩
  have hread := Board.read_run acts (fun _ => ⟨Nat.zero_le _, Nat.zero_le _⟩) hok i
  rw [Board.acked_run h8] at hread
  rw [← hanswers] at hread
  exact ⟨hread, isPrefix_of_received hread⟩

/-- A writer of three readings with a reader that starts after the first and one on a part of the buffer. -/
def sharedActs : List (Act .double) :=
  [.write (.compress readings[0]), .openAt 24, .read 0 .next, .write (.batch (readings.drop 1)), .openAt 18,
    .read 1 (.batch 2), .read 0 (.batch 1), .read 0 .next]

/-- A writer of timestamps that the stream cannot hold, and a reader of them. -/
def driftingActs : List (Act .double) :=
  [.openAt 24, .write (.compress (2 ^ 31, 0)), .read 0 .next, .write (.compress (2 ^ 32, 0)), .read 0 .next]

theorem live_readers_readings :
    let answers := (Machine.run (Shared.step maskedShl .double)
      ⟨ValueType.double.create (some (List.replicate 24 0xFF)) 1000, []⟩ sharedActs).1
    let drifting := (Machine.run (Shared.step maskedShl .double)
      ⟨ValueType.double.create (some (List.replicate 24 0xFF)) 0, []⟩ driftingActs).1
    readBy 0 sharedActs answers <+: ackedBy sharedActs answers ∧
      readBy 0 driftingActs drifting <+: received 0 (ackedBy driftingActs drifting) := by
  intro answers drifting
  have hok : (Board.step (List.replicate 24 (0xFF : U8)).length 1000).Allows
      (Board.Permits (List.replicate 24 (0xFF : U8)).length 1000) ⟨[], []⟩ sharedActs := by
    simp only [sharedActs, Machine.Allows]
    refine ⟨trivial, ⟨by decide, by decide⟩, ?_, trivial, ⟨by decide, by decide⟩, ?_, ?_, ?_, trivial⟩
    all_goals exact ⟨by decide +kernel, by decide +kernel⟩
  have hok' : (Board.step (List.replicate 24 (0xFF : U8)).length 0).Allows
      (Board.Permits (List.replicate 24 (0xFF : U8)).length 0) ⟨[], []⟩ driftingActs := by
    simp only [driftingActs, Machine.Allows]
    exact ⟨⟨by decide, by decide⟩, trivial, ⟨by decide +kernel, by decide +kernel⟩, trivial,
      ⟨by decide +kernel, by decide +kernel⟩, trivial⟩
  exact ⟨((live_readers maskedShl 1000 (by decide) hok).2 0).2 (inRange_of_all (by decide +kernel)),
    ((live_readers maskedShl 0 (by decide) hok').2 0).1⟩

end Gorillats
