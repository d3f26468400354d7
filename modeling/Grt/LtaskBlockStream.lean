import Grt.LtaskBlocks
import Grt.TransitionSystem

/-! The block chain as a byte stream: however the writes are cut, a reader of the closed chain
answers as one that takes its bytes off the front of a list. It frees the blocks in the order
of the chain, and `rb_close` frees those that are left. -/
namespace LtaskBlockStream

open LittleEndian LtaskBlocks TransitionSystem

/-- A read takes all the bytes it asks for, or none when there are too few. -/
def streamRead (bs : List Byte) (sz : ℕ) : Option (List Byte) × List Byte :=
  if bs.length < sz then (none, bs) else (some (bs.take sz), bs.drop sz)

/-- `rb_read` with the reader that it leaves; a refused read returns before it writes. -/
def readCall (rb : ReadBlock) (sz : ℕ) : Option (List Byte) × ReadBlock :=
  match rbRead rb sz with
  | none => (none, rb)
  | some (buf, rb) => (some buf, rb)

variable {rb rb' : ReadBlock} {chain : List Block} {bs buf : List Byte} {sz : ℕ}

theorem readLoop_suffix (tmp : List Byte) (len : ℤ) (freed : ℕ) :
    (readLoop chain tmp sz len freed).2.current <:+ chain := by
  induction chain generalizing tmp sz len freed with
  | nil => exact List.suffix_rfl
  | cons block chain ih =>
    rw [readLoop]
    split
    · exact List.suffix_rfl
    · exact (ih ..).trans (List.suffix_cons block chain)

theorem readFrom_suffix (rb : ReadBlock) (sz : ℕ) : (readFrom rb sz).2.current <:+ rb.current := by
  simp only [readFrom]
  split
  · exact List.suffix_rfl
  · exact (readLoop_suffix ..).trans (List.tail_suffix rb.current)

/-- A reader only moves on along the chain. -/
theorem rbRead_suffix (h : rbRead rb sz = some (buf, rb')) : rb'.current <:+ rb.current := by
  rw [rbRead] at h
  split at h
  · cases h
  · have hfrom := readFrom_suffix (if rb.ptr = BLOCK_SIZE then rb.next else rb) sz
    rw [Option.some.inj h] at hfrom
    refine hfrom.trans ?_
    split
    · exact List.tail_suffix rb.current
    · exact List.suffix_rfl

/-- The reader has `bs` left to read and has freed the blocks of `chain` before its own. -/
structure Streams (chain : List Block) (rb : ReadBlock) (bs : List Byte) : Prop where
  reading : Reading rb
  rest : rb.rest = bs
  suffix : rb.current <:+ chain
  freed : rb.freed + rb.current.length = chain.length

theorem Streams.none_iff (h : Streams chain rb bs) : rbRead rb sz = none ↔ bs.length < sz := by
  rw [rbRead_none h.reading, h.rest]

theorem Streams.current_eq (h : Streams chain rb bs) : rb.current = chain.drop rb.freed := by
  have hcount : chain.length - rb.current.length = rb.freed := by
    have := h.freed
    omega
  rw [← hcount]
  exact List.suffix_iff_eq_drop.mp h.suffix

/-- Off the last block there is nothing left to read. -/
theorem Streams.rest_nil (h : Streams chain rb bs) (hnull : rb.current = []) : bs = [] := by
  rw [← h.rest]
  simp [ReadBlock.rest, hnull]

theorem readCall_streams (h : Streams chain rb bs) (sz : ℕ) :
    (readCall rb sz).1 = (streamRead bs sz).1 ∧
      Streams chain (readCall rb sz).2 (streamRead bs sz).2 := by
  by_cases hshort : bs.length < sz
  · rw [readCall, h.none_iff.mpr hshort, streamRead, if_pos hshort]
    exact ⟨rfl, h⟩
  · have hsz : sz ≤ rb.rest.length := by
      rw [h.rest]
      omega
    obtain ⟨rb', hread, hreading, hrest, hfreed⟩ := rbRead_reading h.reading hsz
    rw [h.rest] at hread hrest
    rw [readCall, hread, streamRead, if_neg hshort]
    exact ⟨rfl, hreading, hrest, (rbRead_suffix hread).trans h.suffix, hfreed.trans h.freed⟩

/-- What a stream has handed out and what it keeps are the stream. -/
theorem streamRead_conserves (sizes : List ℕ) (bs : List Byte) :
    ((runAnswers streamRead bs sizes).1.filterMap id).flatten ++
      (runAnswers streamRead bs sizes).2 = bs := by
  induction sizes generalizing bs with
  | nil => rfl
  | cons sz sizes ih =>
    simp only [runAnswers, streamRead]
    split
    · exact ih bs
    · have hrest := ih (bs.drop sz)
      rw [List.filterMap_cons_some (f := id) (b := bs.take sz) rfl, List.flatten_cons,
        List.append_assoc, hrest, List.take_append_drop]

theorem pushes_appending {b : WriteBlock} (h : Appending b) (bufs : List (List Byte)) :
    Appending (bufs.foldl wbPush b) ∧
      (bufs.foldl wbPush b).content = b.content ++ bufs.flatten := by
  induction bufs generalizing b with
  | nil => exact ⟨h, (List.append_nil _).symm⟩
  | cons buf bufs ih =>
    obtain ⟨hpush, hcontent⟩ := wbPush_appending h buf
    obtain ⟨hall, hflat⟩ := ih hpush
    refine ⟨hall, ?_⟩
    rw [List.foldl_cons, hflat, hcontent, List.append_assoc, List.flatten_cons]

theorem wbClose_length (b : WriteBlock) : (wbClose b).length = b.chain.length := by
  simp [wbClose, wbPush, pushLoop, BLOCK_SIZE, WriteBlock.write]

/-- The reader of a closed chain has all the bytes before it. -/
theorem rbInit_streams (bufs : List (List Byte)) (htotal : bufs.flatten.length < 2 ^ 31) :
    Streams (wbClose (bufs.foldl wbPush wbInit)) (rbInit (wbClose (bufs.foldl wbPush wbInit)))
      bufs.flatten := by
  obtain ⟨hinit, hheader⟩ := wbInit_appending
  obtain ⟨hb, hcontent⟩ := pushes_appending hinit bufs
  rw [hheader] at hcontent
  have hlen : (bufs.foldl wbPush wbInit).len = 4 + bufs.flatten.length := by
    rw [hb.len, hcontent, List.length_append, length_bytes]
  obtain ⟨hreading, hrest⟩ := rbInit_reading hb (by omega) (by omega)
  refine ⟨hreading, ?_, List.suffix_rfl, Nat.zero_add _⟩
  rw [hrest, hcontent]
  exact List.drop_left' (length_bytes ..)

/-- However the bytes were cut into writes, and after any reads: the answers are those of the
stream and together give its bytes, a read is refused exactly when too few are left, and none
is left when the reader has stepped off the last block. The blocks freed are the first ones of
the chain, each once, and closing the reader frees the others: all that were allocated. -/
theorem block_chain_is_stream (bufs : List (List Byte)) (htotal : bufs.flatten.length < 2 ^ 31)
    (sizes : List ℕ) :
    let b := bufs.foldl wbPush wbInit
    let chain := wbClose b
    let r := runAnswers readCall (rbInit chain) sizes
    let f := runAnswers streamRead bufs.flatten sizes
    r.1 = f.1 ∧ (r.1.filterMap id).flatten ++ f.2 = bufs.flatten ∧
      (∀ sz, rbRead r.2 sz = none ↔ f.2.length < sz) ∧ (r.2.current = [] → f.2 = []) ∧
      r.2.current = chain.drop r.2.freed ∧ (rbClose r.2).current = [] ∧
      (rbClose r.2).freed = chain.length ∧ chain.length = b.allocated := by
  intro b chain r f
  obtain ⟨hanswers, hstreams⟩ : r.1 = f.1 ∧ Streams chain r.2 f.2 :=
    runAnswers_refines (R := Streams chain) (fun _ _ sz h => readCall_streams h sz)
      (rbInit_streams bufs htotal)
  have hb := (pushes_appending wbInit_appending.1 bufs).1
  refine ⟨hanswers, ?_, fun sz => hstreams.none_iff, hstreams.rest_nil, hstreams.current_eq, rfl,
    hstreams.freed, (wbClose_length b).trans hb.allocated.symm⟩
  rw [hanswers]
  exact streamRead_conserves sizes bufs.flatten

/-- With the header they fill one block and begin another. -/
def sampleBufs : List (List Byte) := [List.replicate 100 0x61#8, List.replicate 24 0x62#8, [0x63#8]]

/-- A read up to the boundary, one of no bytes there, the last byte and one beyond it. -/
theorem block_chain_is_stream_boundary :
    let r := runAnswers readCall (rbInit (wbClose (sampleBufs.foldl wbPush wbInit))) [124, 0, 1, 1]
    r.1 = [some (sampleBufs.flatten.take 124), some [], some [0x63#8], none] ∧
      (rbClose r.2).freed = 2 := by
  obtain ⟨hanswers, -, -, -, -, -, hfreed, hallocated⟩ :=
    block_chain_is_stream sampleBufs (by decide +kernel) [124, 0, 1, 1]
  exact ⟨hanswers.trans (by decide +kernel), hfreed.trans (hallocated.trans (by decide +kernel))⟩

end LtaskBlockStream
