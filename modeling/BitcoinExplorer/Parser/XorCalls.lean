import BitcoinExplorer.Parser.Xor

/-!
# The two views of `XorReader`

An `XorReader` is a `Read`, a `BufRead` and a `Seek`. A session is a caller of all three: `slice` is
what it has not consumed of the last slice of `fill_buf`, `delivered` are the bytes that `read`
returned and that it consumed since the last successful seek, in the order of the calls.

`read` does not look at the buffer and `seek` does not drop it, so the views share one position only
while nothing is left of the slice whenever `read` or `seek` is called. What carries this is
`Conserved`: what was delivered, the slice and the stream of the file make up the unmasked file.

* **`read_and_fillBuf_share_position`**: without seeks, the delivered bytes are the front of the
  file.
* **`seek_repositions`**: without reads, they are the bytes from the position of the last seek on.
-/

namespace BitcoinExplorer

open Rust KeyStream

/-- A call on an `XorReader`; `seek` is `seek(SeekFrom::Start(pos))`. -/
inductive Call where
  | read (size : Nat)
  | fillBuf
  | consume (amt : Nat)
  | seek (pos : Nat)

/-- The file without its mask: byte `p` is XORed with the mask at `p`. -/
def unmasked (mask : Option XorMask) (content : List UInt8) : List UInt8 :=
  content.mapIdx fun p x => x ^^^ xorKey mask p

/-- A caller and its reader. `origin` is the position of the last successful seek; `ended` says that
the last call reported the end of the stream. -/
structure Session where
  reader : XorReader
  slice : List UInt8
  origin : Nat
  delivered : List UInt8
  ended : Bool

namespace Session

/-- A new reader of a file. -/
def fresh (content : List UInt8) (short : Nat → Nat) (mask : Option XorMask) : Session where
  reader := .new { content, cursor := 0, short, reads := 0 } mask
  slice := []
  origin := 0
  delivered := []
  ended := false

/-- One call. -/
def call (s : Session) : Call → Outcome Error Session
  | .read size =>
    let (buf, reader) := s.reader.read size
    .ok { s with reader, delivered := s.delivered ++ buf, ended := size ≠ 0 && buf.isEmpty }
  | .fillBuf =>
    let (slice, reader) := s.reader.fillBuf
    .ok { s with reader, slice, ended := slice.isEmpty }
  | .consume amt => do
    let reader ← s.reader.consume amt
    .ok
      { s with
        reader
        slice := s.slice.drop amt
        delivered := s.delivered ++ s.slice.take amt
        ended := false }
  | .seek pos =>
    match s.reader.seek pos with
    | (.ok origin, reader) => .ok { s with reader, origin, delivered := [], ended := false }
    | (_, reader) => .ok { s with reader, ended := false }

/-- A sequence of calls. -/
def run : List Call → Session → Outcome Error Session
  | [], s => .ok s
  | c :: calls, s => do
    let s ← s.call c
    run calls s

/-- A read of some bytes and a seek that succeeds find nothing left of the slice, and a caller
consumes no more than what is left of it. -/
def Orderly (s : Session) : Call → Prop
  | .read size => 0 < size → s.slice = []
  | .fillBuf => True
  | .consume amt => amt ≤ s.slice.length
  | .seek pos => pos < 2 ^ 63 → s.slice = []

/-- Every call is orderly when its turn comes. -/
def OrderlyRun : Session → List Call → Prop
  | _, [] => True
  | s, c :: calls => s.Orderly c ∧ ∀ s', s.call c = .ok s' → OrderlyRun s' calls

end Session

/-! ## What the calls leave alone -/

theorem unmasked_eq (mask : Option XorMask) (content : List UInt8) :
    unmasked mask content = xorFrom (xorKey mask) 0 content := by
  rw [xorFrom_eq_mapIdx]
  simp only [Nat.zero_add]
  rfl

/-- A read of the file touches neither the mask nor the buffer. -/
theorem XorReader.read_frame (r : XorReader) (size : Nat) :
    (r.read size).2.mask = r.mask ∧ (r.read size).2.inner.content = r.inner.content ∧
      (r.read size).2.buffer = r.buffer := by
  obtain ⟨inner, pos, mask, buffer⟩ := r
  cases mask <;> exact ⟨rfl, rfl, rfl⟩

namespace Session

/-- Every byte of the file from the origin on is delivered, in the slice, or in the stream, in this
order; the end of the stream is reported when nothing is left. -/
structure Conserved (mask : Option XorMask) (content : List UInt8) (s : Session) : Prop where
  mask_eq : s.reader.mask = mask
  content_eq : s.reader.inner.content = content
  synced : s.reader.Synced
  slice : s.reader.buffer = s.slice
  bytes : s.delivered ++ (s.slice ++ s.reader.stream) = (unmasked mask content).drop s.origin
  ended : s.ended = true → s.slice = [] ∧ s.reader.stream = []

variable {mask : Option XorMask} {content : List UInt8} {s : Session}

theorem conserved_fresh (content : List UInt8) (short : Nat → Nat) (mask : Option XorMask) :
    Conserved mask content (fresh content short mask) where
  mask_eq := rfl
  content_eq := rfl
  synced := XorReader.synced_new _ rfl mask
  slice := rfl
  bytes := (unmasked_eq mask content).symm
  ended h := absurd h Bool.false_ne_true

/-- `read` with nothing left of the slice returns the next bytes. -/
theorem conserved_read (h : Conserved mask content s) {size : Nat}
    (horderly : s.Orderly (.read size)) :
    ∃ s', s.call (.read size) = .ok s' ∧ Conserved mask content s' := by
  obtain ⟨got, r', hread, hsynced, hstream, hsize, -, -⟩ := XorReader.read_spec h.synced size
  obtain ⟨hmask, hcontent, hbuffer⟩ := s.reader.read_frame size
  rw [hread] at hmask hcontent hbuffer
  refine ⟨_, by rw [call, hread], hmask.trans h.mask_eq, hcontent.trans h.content_eq, hsynced,
    hbuffer.trans h.slice, ?_, fun hended => ?_⟩
  · dsimp only
    rw [hstream, ← h.bytes]
    rcases Nat.eq_zero_or_pos size with hzero | hpos
    · obtain rfl : got = 0 := by omega
      rw [List.take_zero, List.append_nil, List.drop_zero]
    · rw [horderly hpos, List.nil_append, List.nil_append, List.append_assoc,
        List.take_append_drop]
  · dsimp only at hended ⊢
    obtain ⟨hne, hempty⟩ := (Bool.and_eq_true _ _).mp hended
    have hpos : 0 < size := Nat.pos_of_ne_zero (of_decide_eq_true hne)
    have hnone : s.reader.stream = [] := XorReader.stream_eq_nil_of_read h.synced hpos (by
      rw [hread]
      exact List.isEmpty_iff.mp hempty)
    rw [hstream, hnone, List.drop_nil]
    exact ⟨horderly hpos, rfl⟩

/-- `fill_buf` moves bytes from the stream to an empty slice. -/
theorem conserved_fillBuf (h : Conserved mask content s) :
    ∃ s', s.call .fillBuf = .ok s' ∧ Conserved mask content s' := by
  by_cases hbuf : s.reader.buffer = []
  · obtain ⟨got, r', hread, hsynced, hstream, -⟩ := XorReader.read_spec h.synced 4096
    obtain ⟨hmask, hcontent, -⟩ := s.reader.read_frame 4096
    have hfill := XorReader.fillBuf_of_empty hbuf
    rw [hread] at hmask hcontent hfill
    have hslice : s.slice = [] := h.slice.symm.trans hbuf
    have hstream' : XorReader.stream { r' with buffer := s.reader.stream.take got } =
        s.reader.stream.drop got := hstream
    refine ⟨_, by rw [call, hfill], hmask.trans h.mask_eq, hcontent.trans h.content_eq,
      hsynced, rfl, ?_, fun hended => ?_⟩
    · dsimp only
      rw [hstream', ← h.bytes, hslice, List.nil_append, List.take_append_drop]
    · have hempty : s.reader.stream.take got = [] := List.isEmpty_iff.mp hended
      have hnone : s.reader.stream = [] :=
        XorReader.stream_eq_nil_of_read h.synced (by decide : 0 < 4096) (by rw [hread, hempty])
      dsimp only
      rw [hstream', hempty, hnone, List.drop_nil]
      exact ⟨rfl, rfl⟩
  · have hfill : s.reader.fillBuf = (s.reader.buffer, s.reader) := by
      rw [XorReader.fillBuf, if_neg (by simpa using hbuf)]
    refine ⟨{ s with slice := s.reader.buffer, ended := s.reader.buffer.isEmpty },
      by rw [call, hfill], h.mask_eq, h.content_eq, h.synced, rfl, ?_, fun hended => ?_⟩
    · dsimp only
      rw [← h.bytes, h.slice]
    · exact absurd (List.isEmpty_iff.mp hended) hbuf

/-- `consume` delivers the front of the slice. -/
theorem conserved_consume (h : Conserved mask content s) {amt : Nat}
    (horderly : s.Orderly (.consume amt)) :
    ∃ s', s.call (.consume amt) = .ok s' ∧ Conserved mask content s' := by
  have hle : amt ≤ s.reader.buffer.length := h.slice ▸ horderly
  refine ⟨{ s with
    reader := { s.reader with buffer := s.reader.buffer.drop amt }
    slice := s.slice.drop amt
    delivered := s.delivered ++ s.slice.take amt
    ended := false }, by rw [call, XorReader.consume, if_pos hle, Outcome.ok_bind], h.mask_eq,
    h.content_eq, h.synced, congrArg (List.drop amt) h.slice, ?_,
    fun hended => absurd hended Bool.false_ne_true⟩
  have hstream : XorReader.stream { s.reader with buffer := s.reader.buffer.drop amt } =
      s.reader.stream := rfl
  dsimp only
  rw [hstream, ← h.bytes, List.append_assoc, ← List.append_assoc (s.slice.take amt),
    List.take_append_drop]

/-- `seek` with nothing left of the slice starts over at the new position. -/
theorem conserved_seek (h : Conserved mask content s) {pos : Nat}
    (horderly : s.Orderly (.seek pos)) :
    ∃ s', s.call (.seek pos) = .ok s' ∧ Conserved mask content s' := by
  by_cases hpos : pos < 2 ^ 63
  · obtain ⟨r', hseek, hsynced, hstream⟩ := XorReader.seek_spec s.reader hpos
    have hframe : r'.mask = s.reader.mask ∧ r'.inner.content = s.reader.inner.content ∧
        r'.buffer = s.reader.buffer := by
      rw [XorReader.seek, File.seek, if_pos hpos] at hseek
      obtain rfl := (Prod.mk.inj hseek).2
      exact ⟨rfl, rfl, rfl⟩
    refine ⟨_, by rw [call, hseek], hframe.1.trans h.mask_eq,
      hframe.2.1.trans h.content_eq, hsynced, hframe.2.2.trans h.slice, ?_,
      fun hended => absurd hended Bool.false_ne_true⟩
    dsimp only
    rw [horderly hpos, hstream, h.mask_eq, h.content_eq, ← unmasked_eq]
    rfl
  · have hseek : s.reader.seek pos =
        (.err .io, { s.reader with pos := s.reader.inner.cursor }) := by
      rw [XorReader.seek, File.seek, if_neg hpos]
    exact ⟨{ s with
      reader := { s.reader with pos := s.reader.inner.cursor }
      ended := false }, by rw [call, hseek], h.mask_eq, h.content_eq, fun _ => rfl,
        h.slice, h.bytes,
      fun hended => absurd hended Bool.false_ne_true⟩

/-- **Every orderly call conserves the bytes.** -/
theorem conserved_call (h : Conserved mask content s) {c : Call} (horderly : s.Orderly c) :
    ∃ s', s.call c = .ok s' ∧ Conserved mask content s' := by
  cases c with
  | read size => exact conserved_read h horderly
  | fillBuf => exact conserved_fillBuf h
  | consume amt => exact conserved_consume h horderly
  | seek pos => exact conserved_seek h horderly

/-- Orderly calls conserve the bytes, one after another. -/
theorem conserved_run {calls : List Call} (h : Conserved mask content s)
    (horderly : s.OrderlyRun calls) :
    ∃ s', s.run calls = .ok s' ∧ Conserved mask content s' := by
  induction calls generalizing s with
  | nil => exact ⟨s, rfl, h⟩
  | cons c calls ih =>
    obtain ⟨hc, hrest⟩ := horderly
    obtain ⟨s', hcall, h'⟩ := conserved_call h hc
    obtain ⟨s'', hrun, h''⟩ := ih h' (hrest s' hcall)
    exact ⟨s'', by rw [run, hcall, Outcome.ok_bind, hrun], h''⟩

/-! ## What a caller gets -/

theorem run_append (calls calls' : List Call) (s : Session) :
    s.run (calls ++ calls') = s.run calls >>= fun s => s.run calls' := by
  induction calls generalizing s with
  | nil => rfl
  | cons c calls ih =>
    rw [List.cons_append, run, run]
    cases s.call c with
    | err e => rfl
    | panic => rfl
    | ok s' => exact ih s'

/-- Only a seek changes the origin. -/
theorem call_origin {s s' : Session} {c : Call} (hseek : ∀ pos, c ≠ .seek pos)
    (h : s.call c = .ok s') : s'.origin = s.origin := by
  cases c with
  | read size =>
    cases h
    rfl
  | fillBuf =>
    cases h
    rfl
  | consume amt =>
    obtain ⟨_, -, h⟩ := Outcome.bind_eq_ok.mp h
    cases h
    rfl
  | seek pos => exact absurd rfl (hseek pos)

theorem run_origin {calls : List Call} {s s' : Session} (hseek : ∀ pos, .seek pos ∉ calls)
    (h : s.run calls = .ok s') : s'.origin = s.origin := by
  induction calls generalizing s with
  | nil =>
    cases h
    rfl
  | cons c calls ih =>
    obtain ⟨s₁, hcall, h⟩ := Outcome.bind_eq_ok.mp h
    have hc : ∀ pos, c ≠ .seek pos := fun pos hc => hseek pos (hc ▸ List.mem_cons_self)
    rw [ih (fun pos hmem => hseek pos (List.mem_cons_of_mem _ hmem)) h, call_origin hc hcall]

/-- What was delivered is the front of the file from the origin on, and all of it once the end was
reported. -/
theorem Conserved.delivered (h : Conserved mask content s) :
    s.delivered <+: (unmasked mask content).drop s.origin ∧
      (s.ended = true → s.delivered = (unmasked mask content).drop s.origin) := by
  refine ⟨⟨_, h.bytes⟩, fun hended => ?_⟩
  obtain ⟨hslice, hstream⟩ := h.ended hended
  rw [← h.bytes, hslice, hstream, List.append_nil, List.append_nil]

/-- **`read` and `fill_buf` share one position** in every run without a seek that reads only when
nothing is left of the slice: no byte is lost, repeated or reordered, and the end is reported only
after the last one. -/
theorem read_and_fillBuf_share_position (content : List UInt8) (short : Nat → Nat)
    (mask : Option XorMask) (calls : List Call) (hseek : ∀ pos, .seek pos ∉ calls)
    (horderly : (fresh content short mask).OrderlyRun calls) :
    ∃ s, (fresh content short mask).run calls = .ok s ∧ s.delivered <+: unmasked mask content ∧
      (s.ended = true → s.delivered = unmasked mask content) := by
  obtain ⟨s, hrun, hs⟩ := conserved_run (conserved_fresh content short mask) horderly
  have horigin : s.origin = 0 := run_origin hseek hrun
  have hdelivered := hs.delivered
  rw [horigin, List.drop_zero] at hdelivered
  exact ⟨s, hrun, hdelivered⟩

/-- The slice is consumed before the next read, and the next `fill_buf` reports the end. -/
theorem read_and_fillBuf_sample :
    ∃ s, (fresh [11, 22, 33] (fun _ => 0) (some #v[1, 2, 3, 4, 5, 6, 7, 8])).run
        [.fillBuf, .consume 1, .read 1, .read 5, .fillBuf] = .ok s ∧
      s.delivered <+: unmasked (some #v[1, 2, 3, 4, 5, 6, 7, 8]) [11, 22, 33] ∧
      (s.ended = true → s.delivered = unmasked (some #v[1, 2, 3, 4, 5, 6, 7, 8]) [11, 22, 33]) := by
  refine read_and_fillBuf_share_position [11, 22, 33] (fun _ => 0)
    (some #v[1, 2, 3, 4, 5, 6, 7, 8])
    [.fillBuf, .consume 1, .read 1, .read 5, .fillBuf] (by simp) ?_
  refine ⟨trivial, fun s hs => ?_⟩
  cases hs
  refine ⟨(Nat.le_refl 1 :), fun s hs => ?_⟩
  cases hs
  refine ⟨fun _ => rfl, fun s hs => ?_⟩
  cases hs
  refine ⟨fun _ => rfl, fun s hs => ?_⟩
  cases hs
  exact ⟨trivial, fun _ _ => trivial⟩

/-- **`read` does not return what `fill_buf` has decoded**: when the file is in the buffer it
reports the end of the stream, and otherwise returns bytes that come after those of the buffer. -/
theorem read_passes_the_buffer :
    (∃ s, (fresh [10, 20] (fun _ => 1) none).run [.fillBuf, .read 1] = .ok s ∧ s.ended = true ∧
        s.delivered ≠ unmasked none [10, 20]) ∧
      ∃ s, (fresh [10, 20] (fun _ => 0) none).run [.fillBuf, .read 1, .consume 1] = .ok s ∧
        ¬ s.delivered <+: unmasked none [10, 20] :=
  ⟨⟨_, rfl, by decide, by decide⟩, ⟨_, rfl, by decide⟩⟩

/-- **A seek repositions the buffered view** when nothing is left of the slice: the bytes consumed
after a successful seek are the ones of the file from there on. -/
theorem seek_repositions (content : List UInt8) (short : Nat → Nat) (mask : Option XorMask)
    (before after : List Call) (pos : Nat) (hpos : pos < 2 ^ 63)
    (hseek : ∀ pos, .seek pos ∉ after)
    (horderly : (fresh content short mask).OrderlyRun (before ++ .seek pos :: after)) :
    ∃ s, (fresh content short mask).run (before ++ .seek pos :: after) = .ok s ∧
      s.delivered <+: (unmasked mask content).drop pos ∧
      (s.ended = true → s.delivered = (unmasked mask content).drop pos) := by
  obtain ⟨s, hrun, hs⟩ := conserved_run (conserved_fresh content short mask) horderly
  have horigin : s.origin = pos := by
    have hsplit := hrun
    rw [run_append] at hsplit
    obtain ⟨s₁, -, hsplit⟩ := Outcome.bind_eq_ok.mp hsplit
    obtain ⟨s₂, hcall, hafter⟩ := Outcome.bind_eq_ok.mp hsplit
    obtain ⟨r', hreader, -, -⟩ := XorReader.seek_spec s₁.reader hpos
    rw [call, hreader] at hcall
    rw [run_origin hseek hafter, ← Outcome.ok.inj hcall]
  have hdelivered := hs.delivered
  rw [horigin] at hdelivered
  exact ⟨s, hrun, hdelivered⟩

/-- A seek back after a slice was consumed. -/
theorem seek_repositions_sample :
    ∃ s, (fresh [11, 22, 33] (fun _ => 1) (some #v[1, 2, 3, 4, 5, 6, 7, 8])).run
        ([.fillBuf, .consume 1, .consume 1] ++ .seek 1 :: [.fillBuf, .consume 1]) = .ok s ∧
      s.delivered <+: (unmasked (some #v[1, 2, 3, 4, 5, 6, 7, 8]) [11, 22, 33]).drop 1 ∧
      (s.ended = true →
        s.delivered = (unmasked (some #v[1, 2, 3, 4, 5, 6, 7, 8]) [11, 22, 33]).drop 1) := by
  refine seek_repositions [11, 22, 33] (fun _ => 1) (some #v[1, 2, 3, 4, 5, 6, 7, 8])
    [.fillBuf, .consume 1, .consume 1] [.fillBuf, .consume 1] 1 (by decide) (by simp) ?_
  refine ⟨trivial, fun s hs => ?_⟩
  cases hs
  refine ⟨(by decide : 1 ≤ 2), fun s hs => ?_⟩
  cases hs
  refine ⟨(Nat.le_refl 1 :), fun s hs => ?_⟩
  cases hs
  refine ⟨fun _ => rfl, fun s hs => ?_⟩
  cases hs
  refine ⟨trivial, fun s hs => ?_⟩
  cases hs
  exact ⟨(by decide : 1 ≤ 2), fun _ _ => trivial⟩

/-- **`seek` keeps the buffer**: what was buffered before is consumed in the place of the byte at
the new position. -/
theorem seek_keeps_the_buffer :
    ∃ s, (fresh [10, 20, 30] (fun _ => 4095) none).run
        [.fillBuf, .seek 2, .fillBuf, .consume 1] = .ok s ∧ s.origin = 2 ∧
      ¬ s.delivered <+: (unmasked none [10, 20, 30]).drop 2 :=
  ⟨_, rfl, rfl, by decide⟩

end Session

end BitcoinExplorer
