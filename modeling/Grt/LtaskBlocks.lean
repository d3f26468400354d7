import Grt.LittleEndian

/-! The block chain of `serialize.c`. A writer appends byte strings to a chain of blocks of
128 bytes and stores their total length in the first four; a reader takes bytes off the front
and frees the blocks it has passed. The chain is a transparent byte stream. -/
namespace LtaskBlocks

open LittleEndian

def BLOCK_SIZE : ℕ := 128

/-- The initialised part of a block's buffer. -/
abbrev Block := List Byte

def memcpy (block : Block) (ptr : ℕ) (buf : List Byte) : Block :=
  block.take ptr ++ buf ++ block.drop (ptr + buf.length)

/-- Conversion to a C `int`. -/
def toInt32 (n : ℤ) : ℤ := (BitVec.ofInt 32 n).toInt

theorem toInt32_eq {n : ℤ} (hlow : -2 ^ 31 ≤ n) (hhigh : n < 2 ^ 31) : toInt32 n = n := by
  rw [toInt32, BitVec.toInt_ofInt]
  apply Int.bmod_eq_of_le <;> omega

theorem toInt32_sub (n k : ℤ) : toInt32 (toInt32 n - k) = toInt32 (n - k) := by
  simp only [toInt32, BitVec.toInt_ofInt]
  exact Int.bmod_sub_bmod

/-- `chain` is the list from `head`, and `current` the position of the current block in it.
Of `len` only the low four bytes are ever stored. The blocks that were allocated and freed are
counted. -/
structure WriteBlock where
  chain : List Block
  len : ℕ
  current : ℕ
  ptr : ℕ
  allocated : ℕ
  freed : ℕ

namespace WriteBlock

variable (b : WriteBlock)

/-- `b->current = b->current->next = blk_alloc()`. -/
def grow : WriteBlock :=
  { b with
    chain := b.chain.take (b.current + 1) ++ [[]]
    current := b.current + 1
    ptr := 0
    allocated := b.allocated + 1 }

def write (buf : List Byte) : WriteBlock :=
  { b with
    chain := b.chain.modify b.current (memcpy · b.ptr buf)
    ptr := b.ptr + buf.length
    len := b.len + buf.length }

end WriteBlock

/-- Each turn fills up a block. -/
def pushLoop : ℕ → WriteBlock → List Byte → WriteBlock
  | 0, b, _ => b
  | fuel + 1, b, buf =>
    let b := if b.ptr = BLOCK_SIZE then b.grow else b
    if b.ptr + buf.length ≤ BLOCK_SIZE then b.write buf
    else
      let copy := BLOCK_SIZE - b.ptr
      pushLoop fuel (b.write (buf.take copy)) (buf.drop copy)

def wbPush (b : WriteBlock) (buf : List Byte) : WriteBlock := pushLoop (buf.length + 1) b buf

/-- The length is not known yet. -/
def wbInit : WriteBlock := wbPush ⟨[[]], 0, 0, 0, 1, 0⟩ (bytes 4 0)

def wbClose (b : WriteBlock) : List Block :=
  (wbPush { b with current := 0, ptr := 0 } (bytes 4 b.len)).chain

/-- The head is `NULL` afterwards. -/
def wbFree (b : WriteBlock) : WriteBlock :=
  ⟨[], 0, 0, 0, b.allocated, b.freed + b.chain.length⟩

/-- `current` is the list from the current block, which is `NULL` when the list is empty. -/
structure ReadBlock where
  current : List Block
  len : ℤ
  ptr : ℕ
  freed : ℕ

/-- `len` is an `int`: a length that fits only without the header is negative in the header,
and the subtraction wraps it back. -/
def rbInit (chain : List Block) : ReadBlock :=
  ⟨chain, toInt32 (toInt32 (value ((chain.headD []).take 4)) - 4), 4, 0⟩

/-- The rest of a read that goes beyond the current block; `chain` are the blocks after it. -/
def readLoop : List Block → List Byte → ℕ → ℤ → ℕ → List Byte × ReadBlock
  | [], tmp, sz, len, freed => (tmp, ⟨[], len - sz, sz, freed + 1⟩)
  | block :: chain, tmp, sz, len, freed =>
    if sz < BLOCK_SIZE then
      (tmp ++ block.take sz, ⟨block :: chain, len - sz, sz, freed + 1⟩)
    else
      readLoop chain (tmp ++ block.take BLOCK_SIZE) (sz - BLOCK_SIZE) (len - BLOCK_SIZE) (freed + 1)

/-- Freeing the current block and going on with the next. -/
def ReadBlock.next (rb : ReadBlock) : ReadBlock := ⟨rb.current.tail, rb.len, 0, rb.freed + 1⟩

/-- A read that starts in the current block. -/
def readFrom (rb : ReadBlock) (sz : ℕ) : List Byte × ReadBlock :=
  let copy := BLOCK_SIZE - rb.ptr
  let block := rb.current.headD []
  if sz ≤ copy then
    ((block.drop rb.ptr).take sz, { rb with ptr := rb.ptr + sz, len := rb.len - sz })
  else
    readLoop rb.current.tail ((block.drop rb.ptr).take copy) (sz - copy) (rb.len - copy) rb.freed

/-- `none` is the `NULL` for a read beyond the end. -/
def rbRead (rb : ReadBlock) (sz : ℕ) : Option (List Byte × ReadBlock) :=
  if rb.len < sz then none
  else some (readFrom (if rb.ptr = BLOCK_SIZE then rb.next else rb) sz)

def rbClose (rb : ReadBlock) : ReadBlock := ⟨[], 0, 0, rb.freed + rb.current.length⟩

def WriteBlock.content (b : WriteBlock) : List Byte := b.chain.flatten

/-- All blocks but the last are full, and the writer is at the end of the last. -/
structure Appending (b : WriteBlock) : Prop where
  last : ∃ full block, b.chain = full ++ [block] ∧ b.current = full.length ∧
    b.ptr = block.length ∧ block.length ≤ BLOCK_SIZE ∧ ∀ x ∈ full, x.length = BLOCK_SIZE
  len : b.len = b.content.length
  freed : b.freed = 0
  allocated : b.allocated = b.chain.length

variable {b : WriteBlock} {buf : List Byte}

theorem modify_last {α : Type*} (l : List α) (x : α) (f : α → α) :
    (l ++ [x]).modify l.length f = l ++ [f x] := by
  induction l with
  | nil => rfl
  | cons y l ih => simp [ih]

theorem grow_appending (h : Appending b) (hfull : b.ptr = BLOCK_SIZE) :
    Appending b.grow ∧ b.grow.content = b.content := by
  obtain ⟨full, block, hchain, hcur, hptr, -, hall⟩ := h.last
  have hgrow : b.grow.chain = b.chain ++ [[]] := by
    have hle : b.chain.length ≤ b.current + 1 := by simp [hchain, hcur]
    rw [WriteBlock.grow, List.take_of_length_le hle]
  have hcontent : b.grow.content = b.content := by
    rw [WriteBlock.content, hgrow, List.flatten_append]
    simp [WriteBlock.content]
  refine ⟨⟨⟨b.chain, [], hgrow, ?_, rfl, Nat.zero_le _, fun x hx => ?_⟩, ?_, h.freed, ?_⟩, hcontent⟩
  · simp [WriteBlock.grow, hchain, hcur]
  · rw [hchain, List.mem_append, List.mem_singleton] at hx
    rcases hx with hx | rfl
    · exact hall x hx
    · exact hptr.symm.trans hfull
  · rw [hcontent]
    exact h.len
  · rw [hgrow, List.length_append, ← h.allocated]
    rfl

theorem write_appending (h : Appending b) (hfit : b.ptr + buf.length ≤ BLOCK_SIZE) :
    Appending (b.write buf) ∧ (b.write buf).content = b.content ++ buf := by
  obtain ⟨full, block, hchain, hcur, hptr, -, hall⟩ := h.last
  have hwrite : (b.write buf).chain = full ++ [block ++ buf] := by
    rw [WriteBlock.write, hchain, hcur, modify_last]
    simp [hptr, memcpy]
  have hcontent : (b.write buf).content = b.content ++ buf := by
    rw [WriteBlock.content, hwrite, WriteBlock.content, hchain]
    simp
  refine ⟨⟨⟨full, block ++ buf, hwrite, hcur, ?_, ?_, hall⟩, ?_, h.freed, ?_⟩, hcontent⟩
  · rw [List.length_append, ← hptr]
    rfl
  · rw [List.length_append, ← hptr]
    exact hfit
  · rw [hcontent, List.length_append, ← h.len]
    rfl
  · rw [hwrite]
    refine h.allocated.trans ?_
    simp [hchain]

theorem ptr_le (h : Appending b) : b.ptr ≤ BLOCK_SIZE := by
  obtain ⟨full, block, -, -, hptr, hle, -⟩ := h.last
  rwa [hptr]

theorem pushLoop_appending (fuel : ℕ) (h : Appending b) (hfuel : buf.length < fuel) :
    Appending (pushLoop fuel b buf) ∧ (pushLoop fuel b buf).content = b.content ++ buf := by
  induction fuel generalizing b buf with
  | zero => omega
  | succ fuel ih =>
    rw [pushLoop]
    have hroom : ∀ b' : WriteBlock, Appending b' → b'.content = b.content → b'.ptr < BLOCK_SIZE →
        Appending (if b'.ptr + buf.length ≤ BLOCK_SIZE then b'.write buf
          else pushLoop fuel (b'.write (buf.take (BLOCK_SIZE - b'.ptr)))
            (buf.drop (BLOCK_SIZE - b'.ptr))) ∧
        (if b'.ptr + buf.length ≤ BLOCK_SIZE then b'.write buf
          else pushLoop fuel (b'.write (buf.take (BLOCK_SIZE - b'.ptr)))
            (buf.drop (BLOCK_SIZE - b'.ptr))).content = b.content ++ buf := by
      intro b' hb' hcontent hlt
      split
      · rename_i hfit
        rw [← hcontent]
        exact write_appending hb' hfit
      · have hfit : b'.ptr + (buf.take (BLOCK_SIZE - b'.ptr)).length ≤ BLOCK_SIZE := by
          rw [List.length_take]
          omega
        obtain ⟨hw, hc⟩ := write_appending hb' hfit
        have hrest : (buf.drop (BLOCK_SIZE - b'.ptr)).length < fuel := by
          rw [List.length_drop]
          omega
        obtain ⟨hl, hcl⟩ := ih hw hrest
        refine ⟨hl, ?_⟩
        rw [hcl, hc, hcontent, List.append_assoc, List.take_append_drop]
    by_cases hfull : b.ptr = BLOCK_SIZE
    · obtain ⟨hg, hc⟩ := grow_appending h hfull
      simp only [if_pos hfull]
      exact hroom _ hg hc (Nat.succ_pos 127)
    · simp only [if_neg hfull]
      exact hroom b h rfl (lt_of_le_of_ne (ptr_le h) hfull)

/-- A push appends its bytes to the stream. -/
theorem wbPush_appending (h : Appending b) (buf : List Byte) :
    Appending (wbPush b buf) ∧ (wbPush b buf).content = b.content ++ buf :=
  pushLoop_appending _ h (Nat.lt_succ_self _)

theorem wbInit_appending : Appending wbInit ∧ wbInit.content = bytes 4 0 := by
  apply wbPush_appending
  exact ⟨⟨[], [], rfl, rfl, rfl, Nat.zero_le _, nofun⟩, rfl, rfl, rfl⟩

/-- The blocks are in use up to the last one. -/
def Chained : List Block → Prop
  | [] => True
  | [block] => block.length ≤ BLOCK_SIZE
  | block :: chain => block.length = BLOCK_SIZE ∧ Chained chain

theorem chained_append {full : List Block} {block : Block}
    (hfull : ∀ x ∈ full, x.length = BLOCK_SIZE) (hblock : block.length ≤ BLOCK_SIZE) :
    Chained (full ++ [block]) := by
  induction full with
  | nil => exact hblock
  | cons x full ih =>
    have hx := hfull x List.mem_cons_self
    have hrest := ih fun y hy => hfull y (List.mem_cons_of_mem x hy)
    cases hc : full ++ [block] with
    | nil => simp at hc
    | cons y chain =>
      rw [List.cons_append, hc]
      exact ⟨hx, hc ▸ hrest⟩

theorem chained_cons {block : Block} {chain : List Block} :
    Chained (block :: chain) ↔
      (block.length = BLOCK_SIZE ∨ chain = [] ∧ block.length ≤ BLOCK_SIZE) ∧ Chained chain := by
  cases chain with
  | nil =>
    refine ⟨fun h => ⟨Or.inr ⟨rfl, h⟩, trivial⟩, fun h => ?_⟩
    exact h.1.elim le_of_eq And.right
  | cons x chain =>
    refine ⟨fun h => ⟨Or.inl h.1, h.2⟩, fun h => ⟨h.1.resolve_right fun hn => ?_, h.2⟩⟩
    cases hn.1

/-- Closing writes the length over the first four bytes. -/
theorem wbClose_chain (h : Appending b) (hlen : 4 ≤ b.len) :
    ∃ head tail, wbClose b = (bytes 4 b.len ++ head) :: tail ∧ Chained (wbClose b) ∧
      head ++ tail.flatten = b.content.drop 4 := by
  obtain ⟨full, block, hchain, -, -, hblock, hall⟩ := h.last
  have hchained : Chained b.chain := hchain ▸ chained_append hall hblock
  cases hc : b.chain with
  | nil =>
    rw [hc] at hchain
    simp at hchain
  | cons head tail =>
    have hclose : wbClose b = (bytes 4 b.len ++ head.drop 4) :: tail := by
      simp [wbClose, wbPush, pushLoop, BLOCK_SIZE, WriteBlock.write, hc, memcpy]
    rw [hc, chained_cons] at hchained
    have hhead : 4 ≤ head.length := by
      rcases hchained.1 with hfull | ⟨rfl, -⟩
      · rw [hfull]
        decide
      · rw [h.len, WriteBlock.content, hc] at hlen
        simpa using hlen
    have hsame : (bytes 4 b.len ++ head.drop 4).length = head.length := by
      rw [List.length_append, length_bytes, List.length_drop]
      omega
    refine ⟨head.drop 4, tail, hclose, ?_, ?_⟩
    · rw [hclose]
      refine chained_cons.mpr ⟨?_, hchained.2⟩
      rw [hsame]
      exact hchained.1
    · rw [WriteBlock.content, hc, List.flatten_cons, List.drop_append_of_le_length hhead]

/-- What is left to read. -/
def ReadBlock.rest (rb : ReadBlock) : List Byte :=
  (rb.current.headD []).drop rb.ptr ++ rb.current.tail.flatten

structure Reading (rb : ReadBlock) : Prop where
  len : rb.len = rb.rest.length
  chained : Chained rb.current
  ptr : rb.ptr ≤ BLOCK_SIZE
  null : rb.current = [] → rb.ptr = 0

variable {rb : ReadBlock} {sz : ℕ}

theorem readLoop_reading {chain : List Block} (hchain : Chained chain) {len : ℤ}
    (hlen : len = chain.flatten.length) (hsz : sz ≤ chain.flatten.length) (tmp : List Byte)
    (freed : ℕ) : ∃ rb', readLoop chain tmp sz len freed = (tmp ++ chain.flatten.take sz, rb') ∧
      Reading rb' ∧ rb'.rest = chain.flatten.drop sz ∧
      rb'.freed + rb'.current.length = freed + 1 + chain.length := by
  induction chain generalizing tmp sz len freed with
  | nil =>
    obtain rfl : sz = 0 := by simpa using hsz
    refine ⟨⟨[], len - (0 : ℕ), 0, freed + 1⟩, by simp [readLoop],
      ⟨?_, trivial, Nat.zero_le _, fun _ => rfl⟩, rfl, rfl⟩
    simpa [ReadBlock.rest] using hlen
  | cons block chain ih =>
    obtain ⟨hblock, hrest⟩ := chained_cons.mp hchain
    rw [List.flatten_cons, List.length_append] at hsz hlen
    rw [readLoop]
    split
    · rename_i hlt
      have hin : sz ≤ block.length := by
        rcases hblock with hfull | ⟨rfl, -⟩
        · omega
        · simpa using hsz
      have hdrop : (block :: chain).flatten.drop sz = block.drop sz ++ chain.flatten := by
        rw [List.flatten_cons, List.drop_append_of_le_length hin]
      refine ⟨⟨block :: chain, len - sz, sz, freed + 1⟩, ?_, ⟨?_, hchain, hlt.le, fun hn => ?_⟩,
        hdrop.symm, rfl⟩
      · rw [List.flatten_cons, List.take_append_of_le_length hin]
      · simp only [ReadBlock.rest, List.headD_cons, List.tail_cons, List.length_append,
          List.length_drop]
        omega
      · cases hn
    · rename_i hge
      have hfull : block.length = BLOCK_SIZE := by
        rcases hblock with hfull | ⟨rfl, hle⟩
        · exact hfull
        · simp at hsz
          omega
      have hlen' : len - BLOCK_SIZE = chain.flatten.length := by omega
      have hsz' : sz - BLOCK_SIZE ≤ chain.flatten.length := by omega
      obtain ⟨rb', heq, hread, hdrop, hfreed⟩ :=
        ih hrest hlen' hsz' (tmp ++ block.take BLOCK_SIZE) (freed + 1)
      refine ⟨rb', ?_, hread, ?_, ?_⟩
      · have hall : block.take sz = block := List.take_of_length_le (by omega)
        rw [heq, List.take_of_length_le hfull.le, List.flatten_cons, List.take_append, hfull, hall,
          List.append_assoc]
      · have hnone : block.drop sz = [] := List.drop_eq_nil_of_le (by omega)
        rw [hdrop, List.flatten_cons, List.drop_append, hfull, hnone, List.nil_append]
      · rw [hfreed, List.length_cons]
        omega

theorem next_reading (h : Reading rb) (hptr : rb.ptr = BLOCK_SIZE) :
    Reading rb.next ∧ rb.next.rest = rb.rest ∧
      rb.next.freed + rb.next.current.length = rb.freed + rb.current.length := by
  cases hc : rb.current with
  | nil =>
    have hnull := h.null hc
    rw [hptr] at hnull
    cases hnull
  | cons block chain =>
    have hchained := h.chained
    rw [hc] at hchained
    obtain ⟨hblock, hrest⟩ := chained_cons.mp hchained
    have hle : block.length ≤ BLOCK_SIZE := hblock.elim le_of_eq And.right
    have heq : rb.next.rest = rb.rest := by
      simp only [ReadBlock.rest, ReadBlock.next, hc, hptr, List.drop_zero, List.headD_cons,
        List.tail_cons, List.drop_of_length_le hle, List.nil_append]
      cases chain <;> rfl
    refine ⟨⟨?_, ?_, Nat.zero_le _, fun _ => rfl⟩, heq, ?_⟩
    · rw [heq]
      exact h.len
    · rwa [ReadBlock.next, hc]
    · simp only [ReadBlock.next, hc, List.tail_cons, List.length_cons]
      omega

theorem readFrom_reading (h : Reading rb) (hptr : rb.ptr < BLOCK_SIZE)
    (hsz : sz ≤ rb.rest.length) : ∃ rb', readFrom rb sz = (rb.rest.take sz, rb') ∧
      Reading rb' ∧ rb'.rest = rb.rest.drop sz ∧
      rb'.freed + rb'.current.length = rb.freed + rb.current.length := by
  cases hc : rb.current with
  | nil =>
    have hrest : rb.rest = [] := by simp [ReadBlock.rest, hc]
    obtain rfl : sz = 0 := by simpa [hrest] using hsz
    refine ⟨{ rb with ptr := rb.ptr + 0, len := rb.len - (0 : ℕ) }, ?_, ?_, ?_, ?_⟩
    · simp [readFrom]
    · exact ⟨by simpa using h.len, h.chained, h.ptr, h.null⟩
    · rfl
    · simp [hc]
  | cons block chain =>
    have hrest : rb.rest = block.drop rb.ptr ++ chain.flatten := by simp [ReadBlock.rest, hc]
    have hchained := h.chained
    rw [hc] at hchained
    obtain ⟨hblock, hchain⟩ := chained_cons.mp hchained
    have hlen := h.len
    rw [hrest, List.length_append, List.length_drop] at hlen
    rw [hrest, List.length_append, List.length_drop] at hsz
    simp only [readFrom, hc, List.headD_cons, List.tail_cons]
    split
    · rename_i hfit
      have hin : sz ≤ (block.drop rb.ptr).length := by
        rw [List.length_drop]
        rcases hblock with hfull | ⟨rfl, -⟩
        · omega
        · simpa using hsz
      have hdrop : (block.drop (rb.ptr + sz)) ++ chain.flatten = rb.rest.drop sz := by
        rw [hrest, List.drop_append_of_le_length hin, List.drop_drop]
      have hptr' : rb.ptr + sz ≤ BLOCK_SIZE := by omega
      refine ⟨⟨block :: chain, rb.len - sz, rb.ptr + sz, rb.freed⟩, ?_,
        ⟨?_, hchained, hptr', nofun⟩, hdrop, rfl⟩
      · rw [hrest, List.take_append_of_le_length hin]
      · simp only [ReadBlock.rest, List.headD_cons, List.tail_cons]
        rw [hdrop, h.len, List.length_drop]
        rw [hrest, List.length_append, List.length_drop]
        omega
    · rename_i hfit
      have hfull : block.length = BLOCK_SIZE := by
        rcases hblock with hfull | ⟨rfl, hle⟩
        · exact hfull
        · simp at hsz
          omega
      have hall : (block.drop rb.ptr).take (BLOCK_SIZE - rb.ptr) = block.drop rb.ptr :=
        List.take_of_length_le (by rw [List.length_drop]; omega)
      have hlen' : rb.len - (BLOCK_SIZE - rb.ptr : ℕ) = chain.flatten.length := by omega
      have hsz' : sz - (BLOCK_SIZE - rb.ptr) ≤ chain.flatten.length := by omega
      obtain ⟨rb', heq, hread, hdrop, hfreed⟩ :=
        readLoop_reading hchain hlen' hsz' (block.drop rb.ptr) rb.freed
      have hcopy : (block.drop rb.ptr).length = BLOCK_SIZE - rb.ptr := by
        rw [List.length_drop, hfull]
      refine ⟨rb', ?_, hread, ?_, ?_⟩
      · have htake : (block.drop rb.ptr).take sz = block.drop rb.ptr :=
          List.take_of_length_le (by omega)
        rw [hall, heq, hrest, List.take_append, htake, hcopy]
      · have hnone : (block.drop rb.ptr).drop sz = [] := List.drop_eq_nil_of_le (by omega)
        rw [hdrop, hrest, List.drop_append, hnone, hcopy, List.nil_append]
      · rw [hfreed, List.length_cons]
        omega

/-- A read takes its bytes off the front of the stream. -/
theorem rbRead_reading (h : Reading rb) (hsz : sz ≤ rb.rest.length) :
    ∃ rb', rbRead rb sz = some (rb.rest.take sz, rb') ∧ Reading rb' ∧
      rb'.rest = rb.rest.drop sz ∧
      rb'.freed + rb'.current.length = rb.freed + rb.current.length := by
  have hlen : ¬ rb.len < sz := by
    rw [h.len]
    omega
  rw [rbRead, if_neg hlen]
  by_cases hptr : rb.ptr = BLOCK_SIZE
  · obtain ⟨hnext, hrest, hfreed⟩ := next_reading h hptr
    obtain ⟨rb', heq, hread, hdrop, hfreed'⟩ :=
      readFrom_reading hnext (Nat.succ_pos 127) (hrest ▸ hsz)
    rw [if_pos hptr]
    refine ⟨rb', ?_, hread, hrest ▸ hdrop, hfreed'.trans hfreed⟩
    rw [heq, hrest]
  · obtain ⟨rb', heq, hread, hdrop, hfreed⟩ :=
      readFrom_reading h (lt_of_le_of_ne h.ptr hptr) hsz
    rw [if_neg hptr]
    exact ⟨rb', by rw [heq], hread, hdrop, hfreed⟩

/-- A read beyond the end is refused. -/
theorem rbRead_none (h : Reading rb) : rbRead rb sz = none ↔ rb.rest.length < sz := by
  rw [rbRead, h.len]
  split
  · rename_i hlt
    exact ⟨fun _ => by omega, fun _ => rfl⟩
  · rename_i hlt
    exact ⟨nofun, fun hx => by omega⟩

/-- The reader of a closed chain is at the first byte after the length. -/
theorem rbInit_reading (h : Appending b) (hlen : 4 ≤ b.len) (hint : b.len < 2 ^ 31 + 4) :
    Reading (rbInit (wbClose b)) ∧ (rbInit (wbClose b)).rest = b.content.drop 4 := by
  obtain ⟨head, tail, hclose, hchained, hrest⟩ := wbClose_chain h hlen
  have hdrop : (rbInit (wbClose b)).rest = b.content.drop 4 := by
    rw [← hrest]
    simp [rbInit, ReadBlock.rest, hclose]
  have hheader : value (((wbClose b).headD []).take 4) = b.len := by
    rw [hclose, List.headD_cons, List.take_left' (length_bytes ..)]
    exact value_bytes_of_lt _ _ (by omega)
  refine ⟨⟨?_, hchained, ?_, ?_⟩, hdrop⟩
  · rw [hdrop, List.length_drop, ← h.len]
    change toInt32 (toInt32 _ - 4) = _
    rw [hheader, toInt32_sub, toInt32_eq (by omega) (by omega)]
    omega
  · exact Nat.le_of_ble_eq_true rfl
  · intro hnil
    change wbClose b = [] at hnil
    rw [hclose] at hnil
    cases hnil

end LtaskBlocks
