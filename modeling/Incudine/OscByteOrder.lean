import Incudine.OscInput

/-!
# The order of the octets

On little endian machines, `index_osc_values` leaves the values in network byte order and
`index_osc_values_le` swaps the numeric values and the lengths of the blobs. The first one reads
the length of a blob in the order of the machine.
-/

namespace Incudine.Osc

open Octets

def Message.networkEncode (m : Message) : List Octet := m.head ++ m.args.flatMap Arg.networkEncode

/-- The octets of a value with the number, or the length of the blob, in the order of the
machine. -/
def Arg.hostEncode : Arg → List Octet
  | int32 n => littleEndian 4 n.toNat
  | float bits => littleEndian 4 bits.toNat
  | int64 n => littleEndian 8 n.toNat
  | double bits => littleEndian 8 bits.toNat
  | char c => littleEndian 4 c.toNat
  | blob b => littleEndian 4 b.length ++ (b ++ zeros (fixSize (b.length + 3) - (4 + b.length)))
  | a => a.networkEncode

def Message.hostEncode (m : Message) : List Octet := m.head ++ m.args.flatMap Arg.hostEncode

/-- The length of a blob as the machine reads it in network byte order. -/
def swapLength (n : ℕ) : ℕ := ofLittleEndian (bigEndian 4 n)

/-- `OSC_FIX_SIZE(length + 3) >> 2`. -/
def blobWords (length : ℕ) : ℕ := fixSize ((length + 3) % 0x100000000) % 0x100000000 / 4

/-- The length of each blob that a value follows gives the same size in both orders. -/
def BlobsAgree : List Arg → Prop
  | [] => True
  | a :: args =>
    (∀ b, a = .blob b → (∃ c ∈ args, c.required) →
      blobWords (swapLength b.length) = blobWords b.length) ∧ BlobsAgree args

/-- The index of a message in the buffer at the address `base` without and with the swap: the same
number of values, types and addresses, and the values are swapped. -/
def Message.WellFormed (m : Message) : Prop := ∀ b, Arg.blob b ∈ m.args → b.length < 0x80000000

section Values

variable {mem mem' : Memory} {size : ℕ} {data : ℤ} {a : Arg}

theorem Arg.length_networkEncode (a : Arg) : a.networkEncode.length = a.encode.length := by
  cases a with
  | timetag time => simp [networkEncode, encode]
  | _ => rfl

theorem Arg.length_hostEncode (a : Arg) : a.hostEncode.length = a.encode.length := by
  cases a with
  | timetag time => simp [hostEncode, networkEncode, encode]
  | blob b => simp [hostEncode, encode, oscBlob]
  | int32 | float | int64 | double | char => simp [hostEncode, encode]
  | _ => rfl

theorem Arg.hostEncode_of_not_required (h : ¬ a.required) : a.hostEncode = [] := by
  rw [← List.length_eq_zero_iff, a.length_hostEncode, encode_of_not_required h]
  rfl

theorem length_flatMap_networkEncode (args : List Arg) :
    (args.flatMap Arg.networkEncode).length = (args.flatMap Arg.encode).length := by
  simp only [List.length_flatMap, Arg.length_networkEncode]

theorem typeWords_isSome (mem : Memory) (size : ℕ) (data : ℤ) (a : Arg) :
    (typeWords mem size data a.tag).isSome = a.required := by
  cases a <;> rfl

theorem exists_typeWords (mem : Memory) (size : ℕ) (data : ℤ) {a : Arg} (h : a.required = true) :
    ∃ n, typeWords mem size data a.tag = some n :=
  Option.isSome_iff_exists.mp ((typeWords_isSome mem size data a).trans h)

theorem typeWords_blob (mem : Memory) (size : ℕ) (data : ℤ) (b : List Octet) :
    typeWords mem size data (Arg.blob b).tag =
      some (blobWords (ofLittleEndian (mem.read data 4))) := rfl

theorem blobWords_eq {b : List Octet} (h : b.length < 0x80000000) :
    blobWords b.length = (Arg.blob b).encode.length / 4 := by
  rw [Arg.encode, length_oscBlob, blobWords]
  simp only [fixSize]
  omega

theorem typeWords_string (h : mem.Holds data a.networkEncode) (hsize : a.encode.length ≤ size)
    (hrequired : a.required) (hblob : ∀ b, a ≠ .blob b) :
    typeWords mem size data a.tag = some (a.encode.length / 4) := by
  cases a with
  | string s | symbol s =>
    have hlt := lt_fixSize s.val.length
    rw [Arg.encode, length_oscString] at hsize
    have hstring : Memory.cString mem size data = s := cString_oscString h (by omega)
    have hwords : s.val.length / 4 + 1 = (oscString s.val).length / 4 := by
      rw [length_oscString, fixSize]
      omega
    simp [Arg.tag, typeWords, ascii, Arg.encode, hstring, ← hwords]
  | blob b => exact absurd rfl (hblob b)
  | int32 | float | int64 | double | char | midi | timetag | timetagDouble =>
    simp [Arg.encode, Arg.tag, typeWords, ascii]
  | trueValue | falseValue | nilValue | infinitum => cases hrequired

theorem read_blob {b : List Octet} (h : mem.Holds data (Arg.blob b).networkEncode) :
    mem.read data 4 = bigEndian 4 b.length := by
  have hblob : (Arg.blob b).networkEncode = bigEndian 4 b.length ++
      (b ++ zeros (fixSize (b.length + 3) - (4 + b.length))) := List.append_assoc _ _ _
  rw [hblob, Cells.holds_append] at h
  have hread := h.1.read_eq
  rw [length_bigEndian] at hread
  exact hread

end Values

section Swap

variable {mem : Memory} {size : ℕ} {data : ℤ} {a : Arg}

theorem holds_store_reverse {n k : ℕ} (h : Cells.Holds mem data (bigEndian k n)) :
    Cells.Holds (Cells.store mem data (Cells.read mem data k).reverse) data (littleEndian k n) := by
  have hread := h.read_eq
  rw [length_bigEndian] at hread
  rw [hread, bigEndian, List.reverse_reverse]
  exact Cells.holds_store _ _ _

theorem holds_swapValue (h : mem.Holds data a.networkEncode) :
    (swapValue mem data a.tag).Holds data a.hostEncode := by
  cases a with
  | int32 n | float n | char n => exact holds_store_reverse h
  | int64 n | double n => exact holds_store_reverse h
  | blob b =>
    have hblob : (Arg.blob b).networkEncode = bigEndian 4 b.length ++
        (b ++ zeros (fixSize (b.length + 3) - (4 + b.length))) := List.append_assoc _ _ _
    rw [hblob, Cells.holds_append, length_bigEndian] at h
    rw [Arg.hostEncode, Cells.holds_append, length_littleEndian]
    refine ⟨holds_store_reverse h.1, h.2.store (Or.inl ?_)⟩
    rw [List.length_reverse, Cells.length_read]
  | _ => exact h

theorem swapValue_of_not (mem : Memory) (a : Arg) {x : ℤ}
    (hx : x < data ∨ data + a.encode.length ≤ x) : swapValue mem data a.tag x = mem x := by
  have hmod := a.length_encode
  have hstore (k : ℕ) (hk : k ≤ a.encode.length) :
      mem.store data (mem.read data k).reverse x = mem x := by
    rcases hx with hx | hx
    · exact mem.store_of_lt _ _ hx
    · apply mem.store_of_le
      rw [List.length_reverse, Cells.length_read]
      omega
  cases a with
  | int32 | float | char | blob => exact hstore 4 (hmod.2 rfl)
  | int64 | double => exact hstore 8 (by simp [Arg.encode])
  | _ => rfl

end Swap

/-- The addresses of the values that the loop over the types finds. -/
def indexPointers (mem : Memory) (size : ℕ) : List Octet → ℤ → List ℤ
  | [], _ => []
  | t :: types, data =>
    match typeWords mem size data t with
    | some n => data :: indexPointers mem size types (data + 4 * n)
    | none => indexPointers mem size types data

/-- The index `x'` has the addresses from `res` on and the types from `tbuf` on, and `x` before. -/
structure Index.Extends (x x' : Index) (res tbuf : ℤ) (pointers : List ℤ) (tags : List Octet) :
    Prop where
  addresses : x'.slots.Holds res pointers
  types : x'.tbuf.Holds tbuf tags
  slotsBefore : ∀ k, k < res → x'.slots k = x.slots k
  tbufBefore : ∀ k, k < tbuf → x'.tbuf k = x.tbuf k

namespace Index

variable {x x' : Index} {res tbuf data : ℤ} {tag : Octet} {pointers : List ℤ} {tags : List Octet}

theorem extends_nil : x.Extends x res tbuf [] [] :=
  ⟨Cells.holds_nil, Cells.holds_nil, fun _ _ => rfl, fun _ _ => rfl⟩

theorem Extends.push (h : Extends ⟨x.slots.store res [data], x.tbuf.store tbuf [tag]⟩ x' (res + 1)
    (tbuf + 1) pointers tags) : x.Extends x' res tbuf (data :: pointers) (tag :: tags) := by
  refine ⟨?_, ?_, fun k hk => ?_, fun k hk => ?_⟩
  · rw [Cells.holds_cons]
    refine ⟨?_, h.addresses⟩
    rw [h.slotsBefore res (by omega)]
    exact Cells.store_self x.slots res data
  · rw [Cells.holds_cons]
    refine ⟨?_, h.types⟩
    rw [h.tbufBefore tbuf (by omega)]
    exact Cells.store_self x.tbuf tbuf tag
  · rw [h.slotsBefore k (by omega)]
    exact Cells.store_of_lt _ _ _ hk
  · rw [h.tbufBefore k (by omega)]
    exact Cells.store_of_lt _ _ _ hk

theorem Extends.skip (h : Extends ⟨x.slots.store res [data], x.tbuf.store tbuf [tag]⟩ x' res tbuf
    pointers tags) : x.Extends x' res tbuf pointers tags := by
  refine ⟨h.addresses, h.types, fun k hk => ?_, fun k hk => ?_⟩
  · rw [h.slotsBefore k hk]
    exact Cells.store_of_lt _ _ _ hk
  · rw [h.tbufBefore k hk]
    exact Cells.store_of_lt _ _ _ hk

end Index

section Loops

variable {mem : Memory} {size : ℕ}

theorem indexPointers_cons (a : Arg) (types : List Octet) (data : ℤ) {n : ℕ}
    (h : typeWords mem size data a.tag = some n) :
    indexPointers mem size (a.tag :: types) data =
      data :: indexPointers mem size types (data + 4 * n) := by
  rw [indexPointers, h]

theorem indexPointers_of_not_required {a : Arg} (h : ¬ a.required) (types : List Octet)
    (data : ℤ) :
    indexPointers mem size (a.tag :: types) data = indexPointers mem size types data := by
  have hnone : typeWords mem size data a.tag = none := by
    rw [← Option.not_isSome_iff_eq_none, typeWords_isSome]
    exact h
  rw [indexPointers, hnone]

theorem length_indexPointers (args : List Arg) (data : ℤ) :
    (indexPointers mem size (args.map Arg.tag) data).length =
      (args.filter Arg.required).length := by
  induction args generalizing data with
  | nil => rfl
  | cons a args ih =>
    by_cases hrequired : a.required
    · obtain ⟨n, hn⟩ := exists_typeWords mem size data hrequired
      rw [List.map_cons, indexPointers_cons a _ _ hn, List.filter_cons, if_pos hrequired,
        List.length_cons, List.length_cons, ih]
    · rw [List.map_cons, indexPointers_of_not_required hrequired, List.filter_cons,
        if_neg hrequired, ih]

theorem indexLoop_pointers (args : List Arg) {res tbuf data : ℤ} {x : Index} :
    ∃ x' free, indexLoop mem size (args.map Arg.tag) res tbuf data x =
        (x', res + (args.filter Arg.required).length, free) ∧
      x.Extends x' res tbuf (indexPointers mem size (args.map Arg.tag) data)
        ((args.filter Arg.required).map Arg.tag) := by
  induction args generalizing res tbuf data x with
  | nil => exact ⟨x, data, by simp [indexLoop], Index.extends_nil⟩
  | cons a args ih =>
    let y : Index := { slots := x.slots.store res [data], tbuf := x.tbuf.store tbuf [a.tag] }
    by_cases hrequired : a.required
    · obtain ⟨n, hn⟩ := exists_typeWords mem size data hrequired
      obtain ⟨x', free, heq, hextends⟩ := @ih (res + 1) (tbuf + 1) (data + 4 * n) y
      refine ⟨x', free, ?_, ?_⟩
      · rw [List.map_cons, indexLoop]
        simp only [hn]
        rw [heq, List.filter_cons, if_pos hrequired, List.length_cons]
        push_cast
        simp only [Prod.mk.injEq, true_and, and_true]
        omega
      · rw [List.map_cons, indexPointers_cons a _ _ hn, List.filter_cons, if_pos hrequired,
          List.map_cons]
        exact hextends.push
    · have hnone : typeWords mem size data a.tag = none := by
        rw [← Option.not_isSome_iff_eq_none, typeWords_isSome]
        exact hrequired
      obtain ⟨x', free, heq, hextends⟩ := @ih res tbuf data y
      refine ⟨x', free, ?_, ?_⟩
      · rw [List.map_cons, indexLoop]
        simp only [hnone]
        rw [heq, List.filter_cons, if_neg hrequired]
      · rw [List.map_cons, indexPointers_of_not_required hrequired, List.filter_cons,
          if_neg hrequired]
        exact hextends.skip

theorem typeWords_swapValue {a : Arg} {data : ℤ} (h : mem.Holds data a.networkEncode)
    (hsize : a.encode.length ≤ size) (hrequired : a.required)
    (hblob : ∀ b, a = .blob b → b.length < 0x80000000) :
    typeWords (swapValue mem data a.tag) size data a.tag = some (a.encode.length / 4) := by
  by_cases hb : ∃ b, a = .blob b
  · obtain ⟨b, rfl⟩ := hb
    have hswap := holds_swapValue h
    rw [Arg.hostEncode, Cells.holds_append] at hswap
    have hread := hswap.1.read_eq
    rw [length_littleEndian] at hread
    have hlength := hblob b rfl
    rw [typeWords_blob, hread, ofLittleEndian_littleEndian (by omega), blobWords_eq hlength]
  · have hother : ∀ b, a ≠ .blob b := fun b hab => hb ⟨b, hab⟩
    have hwords := typeWords_string h hsize hrequired hother
    cases a with
    | blob b => exact absurd rfl (hother b)
    | string s =>
      have hswap : swapValue mem data (Arg.string s).tag = mem := rfl
      rw [hswap, hwords]
    | symbol s =>
      have hswap : swapValue mem data (Arg.symbol s).tag = mem := rfl
      rw [hswap, hwords]
    | int32 | float | int64 | double | char | midi | timetag | timetagDouble =>
      simp [Arg.encode, Arg.tag, typeWords, ascii]
    | trueValue | falseValue | nilValue | infinitum => cases hrequired

theorem indexLoopLe_eq (args : List Arg) {res tbuf data : ℤ} {x : Index}
    (h : mem.Holds data (args.flatMap Arg.networkEncode))
    (hsize : (args.flatMap Arg.encode).length ≤ size)
    (hblob : ∀ b, Arg.blob b ∈ args → b.length < 0x80000000) :
    ∃ mem' x', indexLoopLe size (args.map Arg.tag) res tbuf data mem x =
        (mem', x', res + (args.filter Arg.required).length,
          tbuf + (args.filter Arg.required).length,
          data + (args.flatMap Arg.encode).length) ∧
      Cells.Holds mem' data (args.flatMap Arg.hostEncode) ∧
      (∀ y, y < data ∨ data + (args.flatMap Arg.encode).length ≤ y → mem' y = mem y) ∧
      x.Extends x' res tbuf (argPointers data args)
        ((args.filter Arg.required).map Arg.tag) := by
  induction args generalizing mem res tbuf data x with
  | nil =>
    exact ⟨mem, x, by simp [indexLoopLe], Cells.holds_nil, fun _ _ => rfl, Index.extends_nil⟩
  | cons a args ih =>
    rw [List.flatMap_cons, Cells.holds_append, a.length_networkEncode] at h
    rw [List.flatMap_cons, List.length_append] at hsize
    have hmod := a.length_encode.1
    have hblobs : ∀ b, Arg.blob b ∈ args → b.length < 0x80000000 := fun b hb =>
      hblob b (List.mem_cons_of_mem a hb)
    let y : Index := { slots := x.slots.store res [data], tbuf := x.tbuf.store tbuf [a.tag] }
    have hlater : (swapValue mem data a.tag).Holds (data + a.encode.length)
        (args.flatMap Arg.networkEncode) :=
      h.2.congr fun z hz _ => swapValue_of_not mem a (Or.inr hz)
    by_cases hrequired : a.required
    · have hwords := typeWords_swapValue h.1 (by omega : a.encode.length ≤ size) hrequired
        fun b hb => hblob b (hb ▸ List.mem_cons_self)
      have hnext : data + 4 * ((a.encode.length / 4 : ℕ) : ℤ) = data + a.encode.length := by omega
      obtain ⟨mem', x', heq, hmem, hrest, hextends⟩ :=
        @ih _ (res + 1) (tbuf + 1) (data + a.encode.length) y hlater (by omega) hblobs
      refine ⟨mem', x', ?_, ?_, ?_, ?_⟩
      · rw [List.map_cons, indexLoopLe]
        simp only [hwords, hnext]
        rw [heq, List.filter_cons, if_pos hrequired, List.length_cons, List.flatMap_cons,
          List.length_append]
        push_cast
        simp only [Prod.mk.injEq, true_and]
        omega
      · rw [List.flatMap_cons, Cells.holds_append, a.length_hostEncode]
        refine ⟨(holds_swapValue h.1).congr fun z _ hz => ?_, hmem⟩
        rw [a.length_hostEncode] at hz
        exact hrest z (Or.inl hz)
      · intro z hz
        rw [List.flatMap_cons, List.length_append] at hz
        rw [hrest z (by omega)]
        exact swapValue_of_not mem a (by omega)
      · rw [argPointers, if_pos hrequired, List.singleton_append, List.filter_cons,
          if_pos hrequired, List.map_cons]
        exact hextends.push
    · have hnone : typeWords (swapValue mem data a.tag) size data a.tag = none := by
        rw [← Option.not_isSome_iff_eq_none, typeWords_isSome]
        exact hrequired
      have hempty := Arg.encode_of_not_required hrequired
      rw [hempty, List.length_nil, Nat.cast_zero, add_zero] at hlater
      obtain ⟨mem', x', heq, hmem, hrest, hextends⟩ :=
        @ih _ res tbuf data y hlater (by omega) hblobs
      refine ⟨mem', x', ?_, ?_, ?_, ?_⟩
      · rw [List.map_cons, indexLoopLe]
        simp only [hnone]
        rw [heq, List.filter_cons, if_neg hrequired, List.flatMap_cons, hempty, List.nil_append]
      · rw [List.flatMap_cons, Arg.hostEncode_of_not_required hrequired, List.nil_append]
        exact hmem
      · intro z hz
        rw [List.flatMap_cons, hempty, List.nil_append] at hz
        rw [hrest z hz]
        refine @swapValue_of_not data mem a z ?_
        rw [hempty, List.length_nil]
        omega
      · rw [argPointers, if_neg hrequired, List.nil_append, hempty, List.length_nil, Nat.cast_zero,
          add_zero, List.filter_cons, if_neg hrequired]
        exact hextends.skip

end Loops

variable {args : List Arg}

section Agreement

variable {mem : Memory} {size : ℕ}

theorem head_indexPointers (h : ∃ c ∈ args, c.required) (data : ℤ) :
    (indexPointers mem size (args.map Arg.tag) data).head? = some data := by
  induction args with
  | nil =>
    obtain ⟨c, hc, -⟩ := h
    cases hc
  | cons a args ih =>
    by_cases hrequired : a.required
    · obtain ⟨n, hn⟩ := exists_typeWords mem size data hrequired
      rw [List.map_cons, indexPointers_cons a _ _ hn, List.head?_cons]
    · rw [List.map_cons, indexPointers_of_not_required hrequired]
      obtain ⟨c, hc, hcr⟩ := h
      rcases List.mem_cons.mp hc with rfl | hc
      · exact absurd hcr hrequired
      · exact ih ⟨c, hc, hcr⟩

theorem head_argPointers (h : ∃ c ∈ args, c.required) (data : ℤ) :
    (argPointers data args).head? = some data := by
  induction args with
  | nil =>
    obtain ⟨c, hc, -⟩ := h
    cases hc
  | cons a args ih =>
    by_cases hrequired : a.required
    · rw [argPointers, if_pos hrequired, List.singleton_append, List.head?_cons]
    · rw [argPointers, if_neg hrequired, List.nil_append, Arg.encode_of_not_required hrequired,
        List.length_nil, Nat.cast_zero, add_zero]
      obtain ⟨c, hc, hcr⟩ := h
      rcases List.mem_cons.mp hc with rfl | hc
      · exact absurd hcr hrequired
      · exact ih ⟨c, hc, hcr⟩

theorem pointers_of_no_value (h : ¬ ∃ c ∈ args, c.required) (d d' : ℤ) :
    indexPointers mem size (args.map Arg.tag) d = argPointers d' args := by
  have hnil : args.filter Arg.required = [] :=
    List.filter_eq_nil_iff.mpr fun c hc hcr => h ⟨c, hc, hcr⟩
  have hleft := @length_indexPointers mem size args d
  have hright := @length_argPointers d' args
  rw [hnil] at hleft hright
  rw [List.length_eq_zero_iff.mp hleft, List.length_eq_zero_iff.mp hright]

theorem blobsAgree_of_no_value (h : ¬ ∃ c ∈ args, c.required) : BlobsAgree args := by
  induction args with
  | nil => trivial
  | cons a args ih =>
    have hargs : ¬ ∃ c ∈ args, c.required := fun ⟨c, hc, hcr⟩ =>
      h ⟨c, List.mem_cons_of_mem a hc, hcr⟩
    exact ⟨fun _ _ hc => absurd hc hargs, ih hargs⟩

theorem pointers_cons_of_no_value (h : ¬ ∃ c ∈ args, c.required) (a : Arg) (data : ℤ) :
    indexPointers mem size ((a :: args).map Arg.tag) data = argPointers data (a :: args) := by
  by_cases hrequired : a.required
  · obtain ⟨n, hn⟩ := exists_typeWords mem size data hrequired
    rw [List.map_cons, indexPointers_cons a _ _ hn, argPointers, if_pos hrequired,
      List.singleton_append]
    exact congrArg _ (pointers_of_no_value h _ _)
  · rw [List.map_cons, indexPointers_of_not_required hrequired, argPointers, if_neg hrequired,
      List.nil_append]
    exact pointers_of_no_value h _ _

theorem indexPointers_blob_iff (hvalue : ∃ c ∈ args, c.required) {b : List Octet} {data : ℤ}
    (h : mem.Holds data (Arg.blob b).networkEncode) (hblob : b.length < 0x80000000)
    (hargs : indexPointers mem size (args.map Arg.tag) (data + (Arg.blob b).encode.length) =
      argPointers (data + (Arg.blob b).encode.length) args ↔ BlobsAgree args) :
    indexPointers mem size ((Arg.blob b :: args).map Arg.tag) data =
      argPointers data (.blob b :: args) ↔ BlobsAgree (.blob b :: args) := by
  have hmod := (Arg.blob b).length_encode.1
  have hright := blobWords_eq hblob
  have hwords := typeWords_blob mem size data b
  rw [read_blob h] at hwords
  have hrequired : (Arg.blob b).required = true := rfl
  rw [List.map_cons, argPointers, if_pos hrequired, List.singleton_append, BlobsAgree,
    indexPointers_cons _ _ _ hwords, List.cons.injEq]
  have hstep : blobWords (swapLength b.length) = blobWords b.length ↔
      data + 4 * (blobWords (ofLittleEndian (bigEndian 4 b.length)) : ℤ) =
        data + (Arg.blob b).encode.length := by
    rw [hright, swapLength]
    omega
  constructor
  · rintro ⟨-, hlist⟩
    have hheads := congrArg List.head? hlist
    rw [head_indexPointers hvalue, head_argPointers hvalue, Option.some_inj] at hheads
    refine ⟨fun c hc _ => ?_, ?_⟩
    · injection hc with hc
      rw [← hc]
      exact hstep.mpr hheads
    · rw [hheads] at hlist
      exact hargs.mp hlist
  · rintro ⟨hsame, hrest⟩
    rw [hstep.mp (hsame b rfl hvalue)]
    exact ⟨rfl, hargs.mpr hrest⟩

theorem indexPointers_eq_iff (args : List Arg) {data : ℤ}
    (h : mem.Holds data (args.flatMap Arg.networkEncode))
    (hsize : (args.flatMap Arg.encode).length ≤ size)
    (hblob : ∀ b, Arg.blob b ∈ args → b.length < 0x80000000) :
    indexPointers mem size (args.map Arg.tag) data = argPointers data args ↔ BlobsAgree args := by
  induction args generalizing data with
  | nil => exact ⟨fun _ => trivial, fun _ => rfl⟩
  | cons a args ih =>
    rw [List.flatMap_cons, Cells.holds_append, a.length_networkEncode] at h
    rw [List.flatMap_cons, List.length_append] at hsize
    have hmod := a.length_encode.1
    have hblobs : ∀ b, Arg.blob b ∈ args → b.length < 0x80000000 := fun b hb =>
      hblob b (List.mem_cons_of_mem a hb)
    have hargs := ih h.2 (by omega) hblobs
    by_cases hvalue : ∃ c ∈ args, c.required
    swap
    · exact ⟨fun _ => ⟨fun _ _ hc => absurd hc hvalue, blobsAgree_of_no_value hvalue⟩,
        fun _ => pointers_cons_of_no_value hvalue a data⟩
    by_cases hb : ∃ b, a = .blob b
    · obtain ⟨b, rfl⟩ := hb
      exact indexPointers_blob_iff hvalue h.1 (hblob b List.mem_cons_self) hargs
    · have hother : ∀ b, a ≠ .blob b := fun b hab => hb ⟨b, hab⟩
      have hagree : BlobsAgree (a :: args) ↔ BlobsAgree args :=
        ⟨fun hall => hall.2, fun hrest => ⟨fun b hab => absurd hab (hother b), hrest⟩⟩
      rw [hagree, ← hargs]
      by_cases hrequired : a.required
      · have hwords := typeWords_string h.1 (by omega : a.encode.length ≤ size) hrequired hother
        have hnext : data + 4 * ((a.encode.length / 4 : ℕ) : ℤ) = data + a.encode.length := by
          omega
        rw [List.map_cons, argPointers, if_pos hrequired, List.singleton_append,
          indexPointers_cons _ _ _ hwords, hnext, List.cons.injEq]
        exact ⟨fun hlist => hlist.2, fun hlist => ⟨rfl, hlist⟩⟩
      · rw [List.map_cons, indexPointers_of_not_required hrequired, argPointers, if_neg hrequired,
          List.nil_append, Arg.encode_of_not_required hrequired, List.length_nil, Nat.cast_zero,
          add_zero]

end Agreement

/-- The index of a message in the buffer at the address `base` without and with the swap: the same
number of values, types and addresses, and the values are swapped. The memory of the first one is
the buffer itself. -/
structure IndexesAgree (m : Message) (mem : Memory) (base : ℤ) (plain : Index)
    (le : Memory × Index) : Prop where
  count : plain.tbuf 0 = le.2.tbuf 0
  types : ∀ k : ℕ, k < m.values.length → plain.tbuf (1 + k) = le.2.tbuf (1 + k)
  offsets : ∀ k : ℕ, k < m.values.length → plain.slots (2 + k) = le.2.slots (2 + k)
  swapped : le.1.Holds base m.hostEncode
  rest : ∀ x, x < base ∨ base + m.networkEncode.length ≤ x → le.1 x = mem x

section Functions

variable {mem : Memory} {size : ℕ} {m : Message} {base : ℤ} {x : Index}

theorem Message.length_networkEncode (m : Message) :
    m.networkEncode.length = m.head.length + (m.args.flatMap Arg.encode).length := by
  rw [networkEncode, List.length_append, length_flatMap_networkEncode]

theorem indexOscValues_pointers (hhead : mem.Holds base m.head) (hsize : m.types.length < size)
    (hcount : x.tbuf 0 = 0) {x' : Index}
    (hx' : x' = indexOscValues mem size x (base + fixSize m.address.val.length + 1)
      (base + m.head.length)) :
    x'.slots.Holds 2 (indexPointers mem size m.types (base + m.head.length)) ∧
      x'.tbuf 0 = UInt8.ofNat m.values.length ∧ x'.tbuf.Holds 1 (m.values.map Arg.tag) := by
  obtain ⟨y, free, heq, hslots, htbuf, -, -⟩ := @indexLoop_pointers mem size m.args (2 + 0) (1 + 0)
    (base + m.head.length)
    { x with slots := x.slots.store 0 [base + fixSize m.address.val.length + 1] }
  have hzero : charToInt (x.tbuf 0) = 0 := by
    rw [hcount]
    rfl
  rw [indexOscValues, cString_types hhead hsize, hzero] at hx'
  simp only [Message.types, heq] at hx'
  have hlength := @length_indexPointers mem size m.args (base + m.head.length)
  rw [hx']
  refine ⟨?_, ?_, ?_⟩
  · apply Cells.Holds.store _ (Or.inl (by rw [List.length_singleton]; omega))
    exact hslots.store (Or.inr (by rw [hlength]))
  · have hvalues : ((2 : ℤ) + 0 + (m.args.filter Arg.required).length - (2 + 0)).toNat =
        m.values.length := by
      rw [Message.values]
      omega
    rw [hvalues]
    exact Cells.store_self y.tbuf 0 (UInt8.ofNat m.values.length)
  · exact htbuf.store (Or.inl (by rw [List.length_singleton]; omega))

theorem indexOscValuesLe_pointers (hmem : mem.Holds base m.networkEncode)
    (hsize : m.networkEncode.length ≤ size) (hm : m.WellFormed) {r : Memory × Index}
    (hr : r = indexOscValuesLe mem size x (base + fixSize m.address.val.length + 1)
      (base + m.head.length)) :
    r.2.slots.Holds 2 (argPointers (base + m.head.length) m.args) ∧
      r.2.tbuf 0 = UInt8.ofNat m.values.length ∧ r.2.tbuf.Holds 1 (m.values.map Arg.tag) ∧
      r.1.Holds base m.hostEncode ∧
      ∀ y, y < base ∨ base + m.networkEncode.length ≤ y → r.1 y = mem y := by
  rw [m.length_networkEncode] at hsize ⊢
  rw [Message.networkEncode, Cells.holds_append] at hmem
  have htypes : m.types.length < size := by
    apply length_types_lt
    rw [Message.encode, List.length_append]
    omega
  have hargs : (m.args.flatMap Arg.encode).length ≤ size := by omega
  obtain ⟨mem', y, heq, hhost, hrest, hslots, htbuf, -, htbuf'⟩ := @indexLoopLe_eq mem size m.args
    2 1 (base + m.head.length)
    { x with slots := x.slots.store 0 [base + fixSize m.address.val.length + 1] } hmem.2
    hargs hm
  rw [indexOscValuesLe, cString_types hmem.1 htypes] at hr
  simp only [Message.types, heq] at hr
  have hlength := @length_argPointers (base + m.head.length) m.args
  have htags : ((m.args.filter Arg.required).map Arg.tag).length =
    (m.args.filter Arg.required).length := List.length_map _
  rw [hr]
  refine ⟨?_, ?_, ?_, ?_, ?_⟩
  · apply Cells.Holds.store _ (Or.inl (by rw [List.length_singleton]; omega))
    exact hslots.store (Or.inr (by rw [hlength]))
  · have hvalues : ((2 : ℤ) + (m.args.filter Arg.required).length - 2).toNat =
        m.values.length := by
      rw [Message.values]
      omega
    rw [hvalues]
    exact (Cells.store_of_lt _ _ _ (by omega)).trans (Cells.store_self _ _ _)
  · apply Cells.Holds.store _ (Or.inr (by rw [Message.values, htags]))
    exact htbuf.store (Or.inl (by rw [List.length_singleton]; omega))
  · rw [Message.hostEncode, Cells.holds_append]
    refine ⟨hmem.1.congr fun z _ hz => hrest z (Or.inl hz), hhost⟩
  · intro z hz
    refine hrest z ?_
    push_cast at hz
    omega

/-- Both functions find the same values exactly if each blob that a value follows has a length
that gives the same size in both orders. -/
theorem indexesAgree_iff (hmem : mem.Holds base m.networkEncode)
    (hsize : m.networkEncode.length ≤ size) (hm : m.WellFormed) (hcount : x.tbuf 0 = 0) :
    IndexesAgree m mem base
        (indexOscValues mem size x (base + fixSize m.address.val.length + 1)
          (base + m.head.length))
        (indexOscValuesLe mem size x (base + fixSize m.address.val.length + 1)
          (base + m.head.length)) ↔
      BlobsAgree m.args := by
  obtain ⟨hslotsLe, hcountLe, htypesLe, hswapped, hrest⟩ :=
    @indexOscValuesLe_pointers mem size m base x hmem hsize hm _ rfl
  have hlength := m.length_networkEncode
  rw [Message.networkEncode, Cells.holds_append] at hmem
  have htypes : m.types.length < size := by
    apply length_types_lt
    rw [Message.encode, List.length_append]
    omega
  obtain ⟨hslots, hcount', htypes'⟩ :=
    @indexOscValues_pointers mem size m base x hmem.1 htypes hcount _ rfl
  have hpointers := @length_indexPointers mem size m.args (base + m.head.length)
  have hpointersLe := @length_argPointers (base + m.head.length) m.args
  have hargs : (m.args.flatMap Arg.encode).length ≤ size := by omega
  have hiff := indexPointers_eq_iff m.args hmem.2 hargs hm
  rw [← hiff]
  constructor
  · intro h
    apply List.ext_getElem (hpointers.trans hpointersLe.symm)
    intro k hk hk'
    have hvalue : k < m.values.length := by
      rw [Message.values, ← hpointersLe]
      exact hk'
    exact (hslots k hk).symm.trans ((h.offsets k hvalue).trans (hslotsLe k hk'))
  · intro hlist
    rw [Message.types, hlist] at hslots
    refine ⟨hcount'.trans hcountLe.symm, ?_, ?_, hswapped, hrest⟩
    · intro k hk
      have hk' : k < (m.values.map Arg.tag).length := by
        rw [List.length_map]
        exact hk
      exact (htypes' k hk').trans (htypesLe k hk').symm
    · intro k hk
      have hk' : k < (argPointers (base + m.head.length) m.args).length := by
        rw [hpointersLe]
        exact hk
      exact (hslots k hk').trans (hslotsLe k hk').symm

end Functions

def blobMessage : Message := ⟨⟨"/a".toList.map ascii, by decide⟩, [.blob [7], .int32 5]⟩

/-- The buffer of a message, at the address 0. -/
def receivedMemory (m : Message) : Memory := Cells.store (fun _ => 0) 0 m.networkEncode

def emptyIndex : Index := ⟨fun _ => 0, fun _ => 0⟩

/-- The second value of the message is not found. -/
theorem not_indexesAgree : ¬ ∀ (m : Message) (mem : Memory) (base : ℤ) (size : ℕ) (x : Index),
    mem.Holds base m.networkEncode → m.networkEncode.length ≤ size → m.WellFormed →
    x.tbuf 0 = 0 →
    IndexesAgree m mem base
      (indexOscValues mem size x (base + fixSize m.address.val.length + 1) (base + m.head.length))
      (indexOscValuesLe mem size x (base + fixSize m.address.val.length + 1)
        (base + m.head.length)) := by
  intro h
  have hformed : blobMessage.WellFormed := by
    intro b hb
    simp only [blobMessage, List.mem_cons, List.not_mem_nil, or_false, Arg.blob.injEq,
      reduceCtorEq] at hb
    rw [hb]
    decide
  have hagree := h blobMessage (receivedMemory blobMessage) 0 1500 emptyIndex
    (Cells.holds_store _ _ _) (by decide) hformed rfl
  have hoffset := hagree.offsets 1 (by decide)
  revert hoffset
  decide +kernel

theorem indexesAgree_emptyBlob : IndexesAgree ⟨blobMessage.address, [.blob [], .int32 5]⟩
    (receivedMemory ⟨blobMessage.address, [.blob [], .int32 5]⟩) 0
    (indexOscValues (receivedMemory ⟨blobMessage.address, [.blob [], .int32 5]⟩) 1500 emptyIndex
      (0 + fixSize 2 + 1) (0 + 8))
    (indexOscValuesLe (receivedMemory ⟨blobMessage.address, [.blob [], .int32 5]⟩) 1500 emptyIndex
      (0 + fixSize 2 + 1) (0 + 8)) := by
  refine (@indexesAgree_iff _ 1500 ⟨blobMessage.address, [.blob [], .int32 5]⟩ 0 emptyIndex
    (Cells.holds_store _ _ _) (by decide) ?_ rfl).mpr ?_
  · intro b hb
    simp only [List.mem_cons, List.not_mem_nil, or_false, Arg.blob.injEq, reduceCtorEq] at hb
    rw [hb]
    decide
  · refine ⟨fun b hb _ => ?_, fun b hb => (by cases hb), trivial⟩
    injection hb with hb
    rw [← hb]
    decide

end Incudine.Osc
