import BitcoinExplorer.Basic
import BitcoinExplorer.Lib.KeyStream

/-!
# `src/parser/xor.rs`: the reader of masked blk files

`XorReader<R>` is used with `R = File` only. A `File` answers each read with some front part of what
was asked for: `short` says how much, at least one byte before the end of the file. Positions are
`u64` and bounded by the length of the file, so `pos += 1` does not overflow.

* **`views_stream`**: `read_exact` delivers the unmasked file from its position on, however the
  reads are split. What carries it is `Synced`: the reader's own position counter is that of the
  file.
-/

namespace BitcoinExplorer

open Rust ByteStream KeyStream

/-- `[u8; XOR_MASK_LEN]`. -/
abbrev XorMask := Vector UInt8 8

/-- The byte a file with this mask XORs at a position. -/
def xorKey : Option XorMask → Nat → UInt8
  | none, _ => 0
  | some mask, pos => mask[pos % 8]

/-- An open `std::fs::File`. Read number `i` returns `short i + 1` bytes, or fewer when fewer are
asked for or left. -/
structure File where
  content : List UInt8
  cursor : Nat
  short : Nat → Nat
  reads : Nat

/-- `File::read` into a buffer of `size` bytes. -/
def File.read (file : File) (size : Nat) : List UInt8 × File :=
  let got := min (min size (file.content.length - file.cursor)) (file.short file.reads + 1)
  ((file.content.drop file.cursor).take got,
    { file with cursor := file.cursor + got, reads := file.reads + 1 })

/-- `File::seek(SeekFrom::Start(pos))`: the offset is an `i64`. -/
def File.seek (file : File) (pos : Nat) : Option File :=
  if pos < 2 ^ 63 then some { file with cursor := pos } else none

/-- `XorReader`. -/
structure XorReader where
  inner : File
  pos : Nat
  mask : Option XorMask
  buffer : List UInt8

namespace XorReader

/-- `XorReader::new`. -/
def new (reader : File) (xorMask : Option XorMask) : XorReader :=
  { inner := reader, pos := 0, mask := xorMask, buffer := [] }

/-- The loop `*x ^= mask[self.pos % mask.len()]; self.pos += 1`. -/
def xorLoop (mask : XorMask) : Nat → List UInt8 → List UInt8 × Nat
  | pos, [] => ([], pos)
  | pos, x :: buf =>
    let (buf, pos') := xorLoop mask (pos + 1) buf
    ((x ^^^ mask[pos % 8]) :: buf, pos')

/-- `<XorReader as Read>::read`. -/
def read (r : XorReader) (size : Nat) : List UInt8 × XorReader :=
  let (buf, inner) := r.inner.read size
  match r.mask with
  | some mask =>
    let (buf, pos) := xorLoop mask r.pos buf
    (buf, { r with inner, pos })
  | none => (buf, { r with inner })

/-- `<XorReader as BufRead>::fill_buf`. -/
def fillBuf (r : XorReader) : List UInt8 × XorReader :=
  if r.buffer.isEmpty then
    let (tempBuf, inner) := r.inner.read 4096
    if tempBuf.isEmpty then ([], { r with inner })
    else
      match r.mask with
      | some mask =>
        let (tempBuf, pos) := xorLoop mask r.pos tempBuf
        (tempBuf, { r with inner, pos, buffer := tempBuf })
      | none => (tempBuf, { r with inner, buffer := tempBuf })
  else (r.buffer, r)

/-- `<XorReader as BufRead>::consume`: `drain` panics beyond the buffer. -/
def consume (r : XorReader) (amt : Nat) : Outcome Error XorReader :=
  if amt ≤ r.buffer.length then .ok { r with buffer := r.buffer.drop amt } else .panic

/-- `<XorReader as Seek>::seek(SeekFrom::Start(pos))`. The buffer is kept. -/
def seek (r : XorReader) (pos : Nat) : Outcome Error Nat × XorReader :=
  match r.inner.seek pos with
  | some inner => (.ok pos, { r with inner, pos := inner.cursor })
  | none => (.err .io, { r with pos := r.inner.cursor })

/-- The default `read_exact` of `bitcoin::io::Read`: read until the buffer is full, an empty read is
the end of the file. -/
def readExact (size : Nat) (r : XorReader) : Option (List UInt8 × XorReader) :=
  if size = 0 then some ([], r)
  else
    match r.read size with
    | ([], _) => none
    | (b :: bs, r) => (readExact (size - (b :: bs).length) r).map fun p => (b :: bs ++ p.1, p.2)
termination_by size
decreasing_by
  rw [List.length_cons]
  omega

/-! ## The position counter -/

/-- With a mask, the reader's position counter is the position of the file. -/
def Synced (r : XorReader) : Prop := r.mask.isSome = true → r.pos = r.inner.cursor

/-- The unmasked bytes from the position of the file on. -/
def stream (r : XorReader) : List UInt8 :=
  xorFrom (xorKey r.mask) r.inner.cursor (r.inner.content.drop r.inner.cursor)

theorem xorLoop_eq (mask : XorMask) : ∀ (pos : Nat) (buf : List UInt8),
    xorLoop mask pos buf = (xorFrom (xorKey (some mask)) pos buf, pos + buf.length)
  | _, [] => rfl
  | pos, x :: buf => by
    rw [xorLoop, xorLoop_eq mask (pos + 1) buf, List.length_cons, Nat.add_assoc, Nat.add_comm 1]
    rfl

/-- A read of the file returns `got` bytes, none only at the end, and moves the position past
them. -/
theorem file_read_spec (file : File) (size : Nat) :
    ∃ got, (file.read size).1 = (file.content.drop file.cursor).take got ∧
      (file.read size).2.content = file.content ∧
      (file.read size).2.cursor = file.cursor + got ∧ got ≤ size ∧
      got ≤ file.content.length - file.cursor ∧
      (0 < size → 0 < file.content.length - file.cursor → 0 < got) := by
  refine ⟨min (min size (file.content.length - file.cursor)) (file.short file.reads + 1), rfl, rfl,
    rfl, ?_, ?_, ?_⟩
  all_goals omega

/-- **One read**: it returns a front part of the stream, an empty one only at the end, and leaves
the rest. -/
theorem read_spec {r : XorReader} (hs : r.Synced) (size : Nat) :
    ∃ got r', r.read size = (r.stream.take got, r') ∧ r'.Synced ∧ r'.stream = r.stream.drop got ∧
      got ≤ size ∧ got ≤ r.stream.length ∧ (0 < size → 0 < r.stream.length → 0 < got) := by
  obtain ⟨inner, pos, mask, buffer⟩ := r
  obtain ⟨got, hbytes, hcontent, hcursor, hsize, hlen, hprogress⟩ := file_read_spec inner size
  have hstream : ∀ pos', stream ⟨(inner.read size).2, pos', mask, buffer⟩ =
      (stream ⟨inner, pos, mask, buffer⟩).drop got := by
    intro pos'
    simp only [stream, hcontent, hcursor]
    rw [drop_xorFrom, List.drop_drop]
  have hunmask : xorFrom (xorKey mask) inner.cursor (inner.read size).1 =
      (stream ⟨inner, pos, mask, buffer⟩).take got := by
    rw [stream, take_xorFrom, hbytes]
  have hrest : (stream ⟨inner, pos, mask, buffer⟩).length =
      inner.content.length - inner.cursor := by
    rw [stream, length_xorFrom, List.length_drop]
  cases mask with
  | none =>
    refine ⟨got, ⟨(inner.read size).2, pos, none, buffer⟩, ?_, fun h => absurd h (by simp),
      hstream pos, hsize, hrest ▸ hlen, hrest ▸ hprogress⟩
    rw [← hunmask]
    exact Prod.ext (xorFrom_zero _ _).symm rfl
  | some mask =>
    have hpos : pos = inner.cursor := hs rfl
    subst hpos
    refine ⟨got,
      ⟨(inner.read size).2, inner.cursor + (inner.read size).1.length, some mask, buffer⟩,
      ?_, fun _ => ?_, hstream _, hsize, hrest ▸ hlen, hrest ▸ hprogress⟩
    · rw [← hunmask, read]
      dsimp only
      rw [xorLoop_eq]
    · dsimp only
      rw [hcursor, hbytes, List.length_take, List.length_drop]
      omega

/-- An empty read of some bytes is at the end of the stream. -/
theorem stream_eq_nil_of_read {r : XorReader} (hs : r.Synced) {size : Nat} (hsize : 0 < size)
    (h : (r.read size).1 = []) : r.stream = [] := by
  obtain ⟨got, r', hread, -, -, -, hlen, hprogress⟩ := read_spec hs size
  have hgot : (r.stream.take got).length = got := List.length_take_of_le hlen
  have hempty : r.stream.take got = [] := by rwa [hread] at h
  have hzero : got = 0 := by rw [← hgot, hempty, List.length_nil]
  by_contra hne
  have := hprogress hsize (List.length_pos_of_ne_nil hne)
  omega

/-- `read_exact` delivers the front of the stream and leaves the rest. -/
theorem readExact_spec (size : Nat) : ∀ {r : XorReader}, r.Synced →
    (size ≤ r.stream.length →
      ∃ r', r.readExact size = some (r.stream.take size, r') ∧ r'.Synced ∧
        r'.stream = r.stream.drop size) ∧
      (r.stream.length < size → r.readExact size = none) := by
  -- every read makes progress, so the rest of the request is smaller
  induction size using Nat.strongRecOn with
  | ind size ih =>
    intro r hs
    by_cases hzero : size = 0
    · subst hzero
      rw [readExact, if_pos rfl]
      exact ⟨fun _ => ⟨r, rfl, hs, rfl⟩, fun h => absurd h (Nat.not_lt_zero _)⟩
    obtain ⟨got, r₁, hread, hs₁, hstream, hle, hlen, hprogress⟩ := read_spec hs size
    have hgot : (r.stream.take got).length = got := List.length_take_of_le hlen
    rw [readExact, if_neg hzero, hread]
    cases hfront : r.stream.take got with
    | nil =>
      rw [hfront, List.length_nil] at hgot
      exact ⟨fun h => absurd (hprogress (by omega) (by omega)) (by omega), fun _ => rfl⟩
    | cons b bs =>
      rw [hfront] at hgot
      have hpos : 0 < got := by rw [← hgot]; exact Nat.succ_pos _
      obtain ⟨henough, hshort⟩ := ih (size - got) (by omega) hs₁
      rw [hstream, List.length_drop] at henough hshort
      dsimp only
      rw [hgot]
      refine ⟨fun h => ?_, fun h => ?_⟩
      · obtain ⟨r', hexact, hs', hstream'⟩ := henough (by omega)
        refine ⟨r', ?_, hs', ?_⟩
        · rw [hexact, Option.map_some, ← hfront, ← List.take_add, Nat.add_sub_cancel' hle]
        · rw [hstream', List.drop_drop, Nat.add_sub_cancel' hle]
      · rw [hshort (by omega), Option.map_none]

/-- **`read_exact` delivers the unmasked file** from the position of the reader on, however the
reads are split. -/
theorem views_stream :
    Views readExact fun r s => r.Synced ∧ r.stream = s := by
  rintro r _ n ⟨hs, rfl⟩
  exact readExact_spec n hs

/-! ## Opening, filling the buffer, seeking -/

theorem synced_new (file : File) (hstart : file.cursor = 0) (mask : Option XorMask) :
    (new file mask).Synced := fun _ => hstart.symm

/-- An empty buffer is filled with what one read returns. -/
theorem fillBuf_of_empty {r : XorReader} (h : r.buffer = []) :
    r.fillBuf = ((r.read 4096).1, { (r.read 4096).2 with buffer := (r.read 4096).1 }) := by
  obtain ⟨inner, pos, mask, buffer⟩ := r
  obtain rfl : buffer = [] := h
  unfold fillBuf read
  dsimp only
  rw [if_pos List.isEmpty_nil]
  cases mask with
  | none => cases hbuf : (inner.read 4096).1 <;> rfl
  | some mask => cases hbuf : (inner.read 4096).1 <;> rfl

/-- After a seek the reader delivers the unmasked file from that position on. -/
theorem seek_spec (r : XorReader) {pos : Nat} (hpos : pos < 2 ^ 63) :
    ∃ r', r.seek pos = (.ok pos, r') ∧ r'.Synced ∧
      r'.stream = (xorFrom (xorKey r.mask) 0 r.inner.content).drop pos := by
  refine ⟨{ r with inner := { r.inner with cursor := pos }, pos := pos }, ?_, fun _ => rfl, ?_⟩
  · rw [seek, File.seek, if_pos hpos]
  · rw [stream, drop_xorFrom, Nat.zero_add]

end XorReader

end BitcoinExplorer
