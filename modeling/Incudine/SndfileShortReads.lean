import Incudine.SndfileToBuffer
import Mathlib.Algebra.Ring.Int.Defs

/-!
# Short reads of a sound file

The loops continue after a short read, and the position in the buffer advances by the requested
frames. So the import is exact only if each read is whole, or empty without changes of the memory.
-/

namespace Incudine.Buffers

open FrameMemory Function

section Before

variable {α : Type*} [Zero α] {sndfile : Sndfile α} {incr fuel i pos p remain chunkFrames n j : ℕ}
  {bufChannels : ℕ} {chanMap : List (ℕ × ℕ)} {buf buf' q memory : ℕ → α}

theorem readf_before {ptr frames : ℕ} (hj : j < ptr) :
    (readf sndfile i pos memory ptr frames).1 j = memory j := by
  simp only [readf]
  rw [if_neg (by omega), if_neg (by omega)]

theorem readf_padding {ptr frames : ℕ} (hpad : sndfile.reads.padP = true)
    (hle : ptr + sndfile.reads.count i frames * sndfile.channels ≤ j)
    (hlt : j < ptr + frames * sndfile.channels) :
    (readf sndfile i pos memory ptr frames).1 j = 0 := by
  simp only [readf]
  rw [if_neg (by omega), if_pos ⟨hpad, by omega, hlt⟩]

theorem readf_rest {ptr frames : ℕ} (hpad : sndfile.reads.padP = false)
    (hle : ptr + sndfile.reads.count i frames * sndfile.channels ≤ j) :
    (readf sndfile i pos memory ptr frames).1 j = memory j := by
  simp only [readf]
  rw [if_neg (by omega), if_neg fun hclear => by simp [hpad] at hclear]

theorem sndfileToBufferLoop_cases {r : (ℕ → α) × ℕ}
    (h : sndfileToBufferLoop sndfile incr (fuel + 1) i pos buf p remain chunkFrames = some r) :
    remain = 0 ∧ r = (buf, pos) ∨
      0 < remain ∧ sndfile.reads.count i chunkFrames = 0 ∧
        r = ((readf sndfile i pos buf p chunkFrames).1, pos) ∨
      0 < remain ∧ 0 < sndfile.reads.count i chunkFrames ∧
        sndfileToBufferLoop sndfile incr fuel (i + 1) (pos + sndfile.reads.count i chunkFrames)
          (readf sndfile i pos buf p chunkFrames).1 (p + incr)
          (remain - sndfile.reads.count i chunkFrames)
          (min (remain - sndfile.reads.count i chunkFrames) chunkFrames) = some r := by
  rw [sndfileToBufferLoop] at h
  by_cases hremain : 0 < remain
  · rw [if_pos hremain] at h
    change (if sndfile.reads.count i chunkFrames = 0 then _ else _) = _ at h
    by_cases hzero : sndfile.reads.count i chunkFrames = 0
    · rw [if_pos hzero] at h
      exact .inr (.inl ⟨hremain, hzero, (Option.some_inj.mp h).symm⟩)
    · rw [if_neg hzero] at h
      simp only [← min_def_lt] at h
      exact .inr (.inr ⟨hremain, Nat.pos_of_ne_zero hzero, h⟩)
  · rw [if_neg hremain] at h
    exact .inl ⟨Nat.eq_zero_of_not_pos hremain, (Option.some_inj.mp h).symm⟩

theorem mapSndfileChToBufferLoop_cases {r : (ℕ → α) × ℕ}
    (h : mapSndfileChToBufferLoop sndfile bufChannels chanMap (fuel + 1) i pos q buf p remain
      chunkFrames incr = some r) :
    remain = 0 ∧ r = (buf, pos) ∨
      0 < remain ∧ sndfile.reads.count i chunkFrames = 0 ∧ r = (buf, pos) ∨
      0 < remain ∧ 0 < sndfile.reads.count i chunkFrames ∧ ∃ incr' copied,
        copied = mapFrames chanMap sndfile.channels bufChannels
          (readf sndfile i pos q 0 chunkFrames).1 (incr / sndfile.channels) 0 p buf ∧
        mapSndfileChToBufferLoop sndfile bufChannels chanMap fuel (i + 1)
          (pos + sndfile.reads.count i chunkFrames) (readf sndfile i pos q 0 chunkFrames).1 copied.1
          copied.2 (remain - sndfile.reads.count i chunkFrames)
          (min (remain - sndfile.reads.count i chunkFrames) chunkFrames) incr' = some r := by
  rw [mapSndfileChToBufferLoop] at h
  by_cases hremain : 0 < remain
  · rw [if_pos hremain] at h
    change (if sndfile.reads.count i chunkFrames = 0 then _ else _) = _ at h
    by_cases hzero : sndfile.reads.count i chunkFrames = 0
    · rw [if_pos hzero] at h
      exact .inr (.inl ⟨hremain, hzero, (Option.some_inj.mp h).symm⟩)
    · rw [if_neg hzero] at h
      simp only [apply_ite Prod.fst, ← min_def_lt] at h
      exact .inr (.inr ⟨hremain, Nat.pos_of_ne_zero hzero, _, _, rfl, h⟩)
  · rw [if_neg hremain] at h
    exact .inl ⟨Nat.eq_zero_of_not_pos hremain, (Option.some_inj.mp h).symm⟩

theorem sndfileToBufferLoop_before
    (h : sndfileToBufferLoop sndfile incr fuel i pos buf p remain chunkFrames = some (buf', n)) :
    pos ≤ n ∧ ∀ j < p, buf' j = buf j := by
  induction fuel generalizing i pos buf p remain chunkFrames with
  | zero => cases h
  | succ fuel ih =>
    rcases sndfileToBufferLoop_cases h with ⟨-, heq⟩ | ⟨-, -, heq⟩ | ⟨-, -, hloop⟩
    · cases heq
      exact ⟨le_rfl, fun _ _ => rfl⟩
    · cases heq
      exact ⟨le_rfl, fun _ hj => readf_before hj⟩
    · obtain ⟨hle, hbefore⟩ := ih hloop
      exact ⟨(Nat.le_add_right _ _).trans hle,
        fun j hj => (hbefore j (by omega)).trans (readf_before hj)⟩

omit [Zero α] in
theorem mapFrames_before {channels curr : ℕ} (hj : j < p) :
    (mapFrames chanMap channels bufChannels q n curr p buf).1 j = buf j ∧
      j < (mapFrames chanMap channels bufChannels q n curr p buf).2 := by
  induction n generalizing curr p buf with
  | zero => exact ⟨rfl, hj⟩
  | succ n ih =>
    obtain ⟨hbefore, hlt⟩ := @ih (p + bufChannels) (mapFrame chanMap q curr p buf) (curr + channels)
      (by omega)
    exact ⟨hbefore.trans (mapFrame_outside fun k _ => by omega), hlt⟩

theorem mapSndfileChToBufferLoop_before
    (h : mapSndfileChToBufferLoop sndfile bufChannels chanMap fuel i pos q buf p remain chunkFrames
      incr = some (buf', n)) (hj : j < p) : buf' j = buf j := by
  induction fuel generalizing i pos q buf p remain chunkFrames incr with
  | zero => cases h
  | succ fuel ih =>
    rcases mapSndfileChToBufferLoop_cases h with
      ⟨-, heq⟩ | ⟨-, -, heq⟩ | ⟨-, -, incr', copied, rfl, hloop⟩
    · cases heq
      rfl
    · cases heq
      rfl
    · obtain ⟨hbefore, hlt⟩ := @mapFrames_before α p (incr / sndfile.channels) j bufChannels chanMap
        buf (readf sndfile i pos q 0 chunkFrames).1 sndfile.channels 0 hj
      exact (ih hloop hlt).trans hbefore

end Before

section Short

variable {α : Type*} [Zero α] {p : Import} {reads : Reads} {frame : ℕ → ℕ → α} {buf : ℕ → α} {x : α}
  {bufChannels : ℕ} {chanMap : List (ℕ × ℕ)} {i fuel : ℕ}

theorem readf_const (hcount : reads.count i (p.requested i) = p.requested i) :
    (readf (p.sndfile reads fun _ _ => x) i (i * p.chunkFrames) (fun _ => x) 0 (p.requested i)).1 =
      fun _ => x := by
  rw [Import.readf_mapping hcount]
  funext j
  simp only [store, Option.getD_some, ite_self]

theorem Import.mapping_add (hpos : 0 < p.chunkFrames)
    (hvalid : ∀ k ∈ chanMap, k.1 < p.channels ∧ k.2 < bufChannels)
    (hlt : i * p.chunkFrames < p.frames)
    (hprevious : ∀ j < i, reads.count j (p.requested j) = p.requested j) :
    p.mapping reads (fun _ _ => x) buf bufChannels chanMap (fuel + i) 0 (fun _ => x) =
      p.mapping reads (fun _ _ => x) buf bufChannels chanMap fuel i fun _ => x := by
  induction i generalizing fuel with
  | zero => rfl
  | succ i ih =>
    have hle : i * p.chunkFrames < p.frames :=
      Nat.lt_of_le_of_lt (Nat.mul_le_mul_right _ (Nat.le_succ i)) hlt
    have hcount := hprevious i (Nat.lt_succ_self i)
    have hstep := @ih (fuel + 1) hle fun j hj => hprevious j (Nat.lt_succ_of_lt hj)
    rw [Nat.add_right_comm] at hstep
    rw [← Nat.add_assoc, hstep, Import.mapping_next hvalid hlt hcount hpos,
      readf_const hcount]

theorem Import.lt_of_filling (hpos : 0 < p.chunkFrames) (hlt : i * p.chunkFrames < p.frames)
    (hprevious : ∀ j < i, reads.count j (p.requested j) = p.requested j) {r : (ℕ → α) × ℕ}
    (h : p.filling reads frame buf fuel 0 = some r) : i < fuel := by
  by_contra hle
  have hle' : fuel ≤ i := Nat.le_of_not_lt hle
  have hfuel := @Import.filling_add α _ p reads frame buf 0 fuel hpos
    (Nat.lt_of_le_of_lt (Nat.mul_le_mul_right _ hle') hlt) fun j hj => hprevious j (by omega)
  rw [Nat.zero_add, h, Import.filling, sndfileToBufferLoop] at hfuel
  cases hfuel

theorem Import.requested_le (p : Import) (i : ℕ) : p.requested i ≤ p.requested 0 := by
  rw [Import.requested, Import.requested, Nat.zero_mul]
  omega

omit [Zero α] in
theorem store_after (hpos : 0 < p.channels) {value : ℕ → ℕ → Option α} {n k : ℕ} (hk : n ≤ k) :
    store p.channels p.bufOffset n value buf ((p.bufOffset + k) * p.channels) =
      buf ((p.bufOffset + k) * p.channels) := by
  refine store_outside (.inr ?_)
  rw [Nat.mul_div_cancel _ hpos]
  omega

theorem Import.filling_short {filled : ℕ → α} {n : ℕ} (hlt : i * p.chunkFrames < p.frames)
    (hshort : reads.count i (p.requested i) < p.requested i)
    (hbuf : reads.padP = false → ∀ j, buf j = 0)
    (h : p.filling reads frame buf (fuel + 1) i = some (filled, n)) :
    filled ((p.bufOffset + (i * p.chunkFrames + reads.count i (p.requested i))) * p.channels) =
      0 := by
  have hrequested := p.requested_le i
  set c := reads.count i (p.requested i) with hc
  have hindex : (p.bufOffset + (i * p.chunkFrames + c)) * p.channels =
      (p.bufOffset + i * p.chunkFrames) * p.channels + c * p.channels := by
    rw [← Nat.add_mul, Nat.add_assoc]
  have hmul : c * p.channels < p.requested i * p.channels :=
    Nat.mul_lt_mul_of_pos_right hshort p.channels_pos
  have hmul' : p.requested i * p.channels ≤ p.requested 0 * p.channels :=
    Nat.mul_le_mul_right _ hrequested
  have hread : (readf (p.sndfile reads frame) i (i * p.chunkFrames)
      (store p.channels p.bufOffset (i * p.chunkFrames) (fun k c => some (frame k c)) buf)
      ((p.bufOffset + i * p.chunkFrames) * p.channels) (p.requested i)).1
        ((p.bufOffset + (i * p.chunkFrames + c)) * p.channels) = 0 := by
    cases hpad : reads.padP with
    | true =>
      refine readf_padding hpad ?_ ?_ <;>
        simp only [Import.sndfile_channels, Import.sndfile_reads, ← hc] <;> omega
    | false =>
      rw [readf_rest hpad (by simp only [Import.sndfile_channels, Import.sndfile_reads, ← hc]; omega),
        store_after p.channels_pos (Nat.le_add_right _ _), hbuf hpad]
  rw [Import.filling] at h
  rcases sndfileToBufferLoop_cases h with
    ⟨hremain, -⟩ | ⟨-, -, heq⟩ | ⟨-, -, hloop⟩
  · omega
  · cases heq
    exact hread
  · rw [(sndfileToBufferLoop_before hloop).2 _ (by omega)]
    exact hread

theorem Import.mapping_copied {filled q : ℕ → α} {n : ℕ} (hlt : i * p.chunkFrames < p.frames)
    (hcount : 0 < reads.count i (p.requested i))
    (h : p.mapping reads frame buf p.channels (identityMap p.channels) (fuel + 1) i q =
      some (filled, n)) :
    ∃ incr copied,
      (∀ k < p.requested i, copied ((p.bufOffset + (i * p.chunkFrames + k)) * p.channels) =
        (readf (p.sndfile reads frame) i (i * p.chunkFrames) q 0 (p.requested i)).1
          (k * p.channels)) ∧
      (∀ k, p.requested i ≤ k → copied ((p.bufOffset + (i * p.chunkFrames + k)) * p.channels) =
        buf ((p.bufOffset + (i * p.chunkFrames + k)) * p.channels)) ∧
      mapSndfileChToBufferLoop (p.sndfile reads frame) p.channels (identityMap p.channels) fuel
        (i + 1) (i * p.chunkFrames + reads.count i (p.requested i))
        (readf (p.sndfile reads frame) i (i * p.chunkFrames) q 0 (p.requested i)).1 copied
        ((p.bufOffset + i * p.chunkFrames + p.requested i) * p.channels)
        (p.frames - i * p.chunkFrames - reads.count i (p.requested i))
        (min (p.frames - i * p.chunkFrames - reads.count i (p.requested i)) (p.requested i)) incr =
          some (filled, n) := by
  rw [Import.mapping] at h
  rcases mapSndfileChToBufferLoop_cases h with
    ⟨hremain, -⟩ | ⟨-, hzero, -⟩ | ⟨-, -, incr, copied, hcopied, hloop⟩
  · omega
  · exact absurd hzero hcount.ne'
  have hdiv : p.requested i * p.channels / p.channels = p.requested i :=
    Nat.mul_div_cancel _ p.channels_pos
  rw [Import.sndfile_channels, hdiv, mapFrames_eq fun k hk => (valid_identityMap _ k hk).2] at hcopied
  have hbuf := congrArg Prod.fst hcopied
  have hptr := congrArg Prod.snd hcopied
  simp only at hbuf hptr
  rw [hptr] at hloop
  refine ⟨incr, copied.1, fun k hk => ?_, fun k hk => ?_, hloop⟩
  · rw [hbuf, ← Nat.add_assoc]
    refine @store_value α p.channels 0 (p.bufOffset + i * p.chunkFrames) (p.requested i) k
      (fun k c => (source (identityMap p.channels) c).map fun s =>
        (readf (p.sndfile reads frame) i (i * p.chunkFrames) q 0 (p.requested i)).1
          (0 + k * p.channels + s)) _ hk p.channels_pos _ ?_
    rw [source_identityMap p.channels_pos, Option.map_some, Nat.zero_add, Nat.add_zero]
  · have hafter : p.bufOffset + i * p.chunkFrames + p.requested i ≤
        (p.bufOffset + (i * p.chunkFrames + k)) * p.channels / p.channels := by
      rw [Nat.mul_div_cancel _ p.channels_pos]
      omega
    rw [hbuf, store_outside (.inr hafter), store_after p.channels_pos (Nat.le_add_right _ _)]

theorem Import.not_agree {filled q : ℕ → α} {n : ℕ} (hx : x ≠ 0) (hpad : reads.padP = true)
    (hlt : i * p.chunkFrames < p.frames) (hcount : 0 < reads.count i (p.requested i))
    (hshort : reads.count i (p.requested i) < p.requested i)
    (hfills : ∀ k < n, filled ((p.bufOffset + k) * p.channels) = x)
    (hfilled : p.filling reads frame (fun _ => x) (fuel + 1) i = some (filled, n)) :
    p.mapping reads frame (fun _ => x) p.channels (identityMap p.channels) (fuel + 1) i q ≠
      some (filled, n) := by
  intro hmapped
  have hzero := Import.filling_short hlt hshort (fun hfalse => by simp [hpad] at hfalse) hfilled
  have hn : n ≤ i * p.chunkFrames + reads.count i (p.requested i) := by
    by_contra hlt
    exact hx ((hfills _ (Nat.lt_of_not_le hlt)).symm.trans hzero)
  have hle : p.requested i ≤ p.frames - i * p.chunkFrames := Nat.min_le_right _ _
  have hremain : 0 < p.frames - i * p.chunkFrames - reads.count i (p.requested i) := by omega
  obtain ⟨incr, copied, -, hrest, hmapped⟩ := Import.mapping_copied hlt hcount hmapped
  rw [Import.filling] at hfilled
  rcases sndfileToBufferLoop_cases hfilled with
    ⟨hnil, -⟩ | ⟨-, hnone, -⟩ | ⟨-, -, hfilled⟩
  · omega
  · exact absurd hnone hcount.ne'
  have hpos := Nat.lt_min.mpr ⟨hremain, Nat.zero_lt_of_lt hshort⟩
  cases fuel with
  | zero => cases hfilled
  | succ fuel =>
    rcases sndfileToBufferLoop_cases hfilled with
      ⟨hnil, -⟩ | ⟨-, hnone, heq⟩ | ⟨-, hsome, hfilled⟩
    · exact absurd hnil hremain.ne'
    · have hindex : (p.bufOffset + i * p.chunkFrames) * p.channels + p.requested 0 * p.channels =
          (p.bufOffset + (i * p.chunkFrames + p.requested 0)) * p.channels := by
        rw [← Nat.add_mul, Nat.add_assoc]
      have hcleared : filled ((p.bufOffset + (i * p.chunkFrames + p.requested 0)) * p.channels) =
          0 := by
        rw [← hindex, (Prod.mk.inj heq).1]
        refine readf_padding hpad (by rw [hnone]; omega) ?_
        exact Nat.lt_add_of_pos_right (Nat.mul_pos hpos p.channels_pos)
      rcases mapSndfileChToBufferLoop_cases hmapped with
        ⟨hnil, -⟩ | ⟨-, -, heq⟩ | ⟨-, hsome, -⟩
      · omega
      · have hkept := hrest _ (p.requested_le i)
        rw [← (Prod.mk.inj heq).1, hcleared] at hkept
        exact hx hkept.symm
      · exact absurd hnone hsome.ne'
    · have hle := (sndfileToBufferLoop_before hfilled).1
      simp only [Import.sndfile_reads] at hsome hle
      omega

theorem Import.Exact.whole [Nontrivial α] (h : p.Exact reads α) : p.Whole reads := by
  intro i hlt hprevious
  by_contra hnot
  obtain ⟨hcount, hnone⟩ := not_or.mp hnot
  have hshort := Nat.lt_of_le_of_ne (reads.count_le i (p.requested i)) hcount
  have hpos : 0 < p.chunkFrames := by
    have hle : p.requested i ≤ p.chunkFrames := Nat.min_le_left _ _
    omega
  obtain ⟨x, hx⟩ := exists_ne (0 : α)
  obtain ⟨fuel, filled, n, -, -, hfilled, hfills, -, -, hmapped⟩ :=
    h (fun _ _ => x) (fun _ => if reads.padP then x else 0) fun _ => x
  rw [sndfileToBuffer_eq] at hfilled
  rw [mapSndfileChToBuffer_eq] at hmapped
  by_cases hint : p.requested 0 * p.channels < 2 ^ 31
  swap
  · rw [if_neg hint] at hfilled
    cases hfilled
  rw [if_pos hint] at hfilled hmapped
  obtain ⟨fuel, rfl⟩ : ∃ fuel', fuel = fuel' + 1 + i := by
    have hfuel := Import.lt_of_filling hpos hlt hprevious hfilled
    exact ⟨fuel - 1 - i, by omega⟩
  rw [Import.filling_add hpos hlt hprevious] at hfilled
  rw [Import.mapping_add hpos (valid_identityMap _) hlt hprevious] at hmapped
  have hzero := Import.filling_short hlt hshort (fun hpad j => by rw [hpad]; rfl) hfilled
  rcases Nat.eq_zero_or_pos (reads.count i (p.requested i)) with hcount | hcount
  · have hpad : reads.padP = true := by
      by_contra hpad
      exact hnone ⟨Bool.eq_false_iff.mpr hpad, hcount⟩
    rw [Import.mapping_none hlt hcount] at hmapped
    cases hmapped
    rw [store_after p.channels_pos (Nat.le_add_right _ _), if_pos hpad] at hzero
    exact hx hzero
  cases hpad : reads.padP with
  | false =>
    obtain ⟨_, copied, hcopied, -, hloop⟩ := Import.mapping_copied hlt hcount hmapped
    have hbefore : (p.bufOffset + (i * p.chunkFrames + reads.count i (p.requested i))) *
        p.channels < (p.bufOffset + i * p.chunkFrames + p.requested i) * p.channels :=
      Nat.mul_lt_mul_of_pos_right (by omega) p.channels_pos
    rw [mapSndfileChToBufferLoop_before hloop hbefore, hcopied _ hshort, readf_rest hpad] at hzero
    · exact hx hzero
    · simp
  | true =>
    have hbuf : (fun _ : ℕ => if reads.padP then x else 0) = fun _ => x := by simp [hpad]
    rw [hbuf] at hfilled hmapped
    refine Import.not_agree hx hpad hlt hcount hshort (fun k hk => ?_) hfilled hmapped
    exact hfills.stored k hk 0 p.channels_pos x rfl

end Short

/-- The two functions import the frames exactly if the size of a chunk is an `int` and the reads
are whole. -/
theorem imports_iff {α : Type*} [Zero α] [Nontrivial α] (p : Import) (reads : Reads) :
    p.Exact reads α ↔ p.requested 0 * p.channels < 2 ^ 31 ∧ p.Whole reads := by
  constructor
  · intro h
    refine ⟨?_, h.whole⟩
    by_contra hint
    obtain ⟨fuel, filled, n, -, -, hfilled, -⟩ := h (fun _ _ => 0) (fun _ => 0) fun _ => 0
    rw [sndfileToBuffer_eq, if_neg hint] at hfilled
    cases hfilled
  · rintro ⟨hint, hwhole⟩
    exact hwhole.exact hint

/-- Four frames of a mono file in chunks of two frames. -/
def monoImport : Import :=
  ⟨1, Nat.one_pos, 1, 0, 4, 2, [(0, 0)], by decide⟩

/-- The first read returns at most one frame. -/
def shortReads : Reads where
  count := fun i requested => if i = 0 then min 1 requested else requested
  count_le := by
    intro i requested
    split_ifs
    · exact Nat.min_le_right _ _
    · exact le_rfl
  padP := false

def wholeReads : Reads := ⟨fun _ requested => requested, fun _ _ => le_rfl, false⟩

theorem imports_iff_mono : monoImport.Exact wholeReads ℤ :=
  (imports_iff monoImport wholeReads).mpr ⟨by decide, fun _ _ _ => .inl rfl⟩

/-- After a short read the frames are shifted. -/
theorem not_imports : ¬ monoImport.Exact shortReads ℤ := by
  intro h
  have hwhole := h.whole 0 (by decide) nofun
  revert hwhole
  decide

/-- The fourth frame is stored after the end of the region. -/
example : (sndfileToBuffer 4 (fun _ => 0)
    (monoImport.sndfile shortReads fun k _ => (k : ℤ) + 1) 4 0 2).map
      (fun r => (List.range 6).map r.1) = some [1, 0, 2, 3, 4, 0] := by
  decide

end Incudine.Buffers
