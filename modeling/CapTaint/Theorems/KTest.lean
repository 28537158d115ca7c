import CapTaint.KTest

/-! Which test cases their files give back. -/

namespace CapTaint.KTest
open Codec

/-! ### Codes -/

def uint32Code (value : UInt32) : List UInt8 :=
  [(value >>> 24).toUInt8, (value >>> 16).toUInt8, (value >>> 8).toUInt8, value.toUInt8]

def stringCode (s : CString) : List UInt8 := uint32Code (.ofNat s.val.length) ++ s.val

def objectCode (o : KTestObject) : List UInt8 := stringCode o.name ++ (uint32Code o.numBytes ++ o.bytes)

def code (bo : KTest) : List UInt8 :=
  KTEST_MAGIC ++ (uint32Code KTEST_VERSION ++ (uint32Code (.ofNat bo.args.length) ++ (bo.args.flatMap stringCode ++
    (uint32Code bo.symArgvs ++ (uint32Code bo.symArgvLen ++
      (uint32Code (.ofNat bo.objects.length) ++ bo.objects.flatMap objectCode))))))

/-- A string that is not empty and whose length leaves room for the NUL in an `unsigned`. -/
def StorableString (s : CString) : Prop := 0 < s.val.length ∧ s.val.length < 2 ^ 32 - 1

def StorableObject (o : KTestObject) : Prop := StorableString o.name ∧ o.bytes ≠ []

/-- A test case without an empty string or empty contents, whose strings have fewer than `2 ^ 32 - 1` bytes. -/
def Storable (bo : KTest) : Prop := (∀ s ∈ bo.args, StorableString s) ∧ ∀ o ∈ bo.objects, StorableObject o

theorem StorableString.toNat {s : CString} (h : StorableString s) : (UInt32.ofNat s.val.length).toNat = s.val.length :=
  UInt32.toNat_ofNat_of_lt' (h.2.trans (by decide))

/-! ### Written files -/

theorem fwrite_writes {data : List UInt8} (h : data ≠ []) : Writes (fwrite data) data :=
  fun _ => if_neg h

theorem writeUint32_writes (value : UInt32) : Writes (writeUint32 value) (uint32Code value) :=
  fwrite_writes (List.cons_ne_nil _ _)

theorem writeString_writes {s : CString} (h : StorableString s) : Writes (writeString s) (stringCode s) := by
  refine (writeUint32_writes _).bind ?_
  rw [h.toNat, List.take_length]
  exact fwrite_writes (List.ne_nil_of_length_pos h.1)

theorem writeObject_writes {o : KTestObject} (h : StorableObject o) : Writes (writeObject o) (objectCode o) :=
  (writeString_writes h.1).bind ((writeUint32_writes _).bind (fwrite_writes h.2))

theorem writeKTest_writes {bo : KTest} (h : Storable bo) : Writes (writeKTest bo) (code bo) :=
  .bind (fwrite_writes (List.cons_ne_nil _ _)) <| .bind (writeUint32_writes _) <| .bind (writeUint32_writes _) <|
    .bind (.forM fun s hs => writeString_writes (h.1 s hs)) <| .bind (writeUint32_writes _) <|
      .bind (writeUint32_writes _) <| .bind (writeUint32_writes _) <| .forM fun o ho => writeObject_writes (h.2 o ho)

theorem toFile_eq {bo : KTest} (h : Storable bo) : toFile bo = .ok () (code bo) := writeKTest_writes h []

/-! ### Read files -/

theorem fread_reads {data : List UInt8} {size : Nat} (hdata : data ≠ []) (hsize : data.length = size) :
    Reads .rejected (fread size) data ⟨data, hsize⟩ where
  whole rest := by
    subst hsize
    have hpos : data.length ≠ 0 := fun h => hdata (List.length_eq_zero_iff.mp h)
    simp [fread, hpos]
  cut {front back} h hback := by
    have hlength := congrArg List.length h
    have hpos := List.length_pos_of_ne_nil hback
    rw [List.length_append] at hlength
    exact ⟨[], dif_neg fun hc => by omega⟩

/-- The four bytes of a number, the most significant one first, make it up again. -/
theorem uint32_bytes (value : UInt32) :
    ((((((value >>> 24).toUInt8.toUInt32 <<< 8) + (value >>> 16).toUInt8.toUInt32) <<< 8) +
      (value >>> 8).toUInt8.toUInt32) <<< 8) + value.toUInt8.toUInt32 = value := by
  apply UInt32.toNat_inj.mp
  have hvalue := value.toNat_lt
  simp only [UInt32.toNat_add, UInt32.toNat_shiftLeft, UInt8.toNat_toUInt32, UInt32.toNat_toUInt8,
    UInt32.toNat_shiftRight, Nat.shiftRight_eq_div_pow, Nat.shiftLeft_eq, UInt32.reduceToNat,
    Nat.reduceMod, Nat.reducePow]
  omega

theorem readUint32_reads (value : UInt32) : Reads .rejected readUint32 (uint32Code value) value := by
  have hdata : Reads .rejected (fread 4) (uint32Code value) ⟨uint32Code value, rfl⟩ :=
    fread_reads (List.cons_ne_nil _ _ : uint32Code value ≠ []) rfl
  exact hdata.map (congrArg Pure.pure (uint32_bytes value))

theorem ofBuffer_val (s : CString) : ofBuffer s.val = s :=
  Subtype.ext (List.takeWhile_eq_self_iff.mpr fun b hb => by simpa using fun h : b = 0 => s.2 (h ▸ hb))

theorem readString_reads {s : CString} (h : StorableString s) : Reads .rejected readString (stringCode s) s := by
  refine (readUint32_reads _).bind ?_
  have hlen : UInt32.ofNat s.val.length + 1 ≠ 0 := by
    intro hzero
    have hnat := congrArg UInt32.toNat hzero
    rw [UInt32.toNat_add, h.toNat] at hnat
    have := h.2
    simp at hnat
    omega
  simp only [if_neg hlen]
  exact (fread_reads (List.ne_nil_of_length_pos h.1) h.toNat.symm).map (congrArg Pure.pure (ofBuffer_val s))

theorem readObject_reads {o : KTestObject} (h : StorableObject o) : Reads .rejected readObject (objectCode o) o :=
  (readString_reads h.1).bind <| (readUint32_reads _).bind <|
    (fread_reads h.2 (UInt32.toNat_ofNat_of_lt' o.numBytes_lt).symm).map rfl

theorem checkHeader_reads : Reads .rejected checkHeader KTEST_MAGIC () := by
  have hheader : Reads .rejected (fread 5) KTEST_MAGIC ⟨KTEST_MAGIC, rfl⟩ :=
    fread_reads (List.cons_ne_nil _ _ : KTEST_MAGIC ≠ []) rfl
  exact hheader.map (if_neg fun h => h.1 rfl)

theorem readSymArgvs_reads (symArgvs symArgvLen : UInt32) :
    Reads .rejected (readSymArgvs KTEST_VERSION) (uint32Code symArgvs ++ uint32Code symArgvLen) (symArgvs, symArgvLen) :=
  (readUint32_reads _).bind ((readUint32_reads _).map rfl)

theorem readKTest_reads {bo : KTest} (h : Storable bo) :
    Reads .rejected readKTest (code bo) { bo with version := KTEST_VERSION } := by
  have hargs : bo.args.length = (UInt32.ofNat bo.args.length).toNat := (UInt32.toNat_ofNat_of_lt' bo.numArgs_lt).symm
  have hobjects : bo.objects.length = (UInt32.ofNat bo.objects.length).toNat :=
    (UInt32.toNat_ofNat_of_lt' bo.numObjects_lt).symm
  refine checkHeader_reads.bind ((readUint32_reads _).bind ((readUint32_reads _).bind ?_))
  refine (Reads.many hargs fun s hs => readString_reads (h.1 s hs)).bind ?_
  rw [← List.append_assoc (uint32Code _)]
  refine (readSymArgvs_reads _ _).bind ((readUint32_reads _).bind ?_)
  exact (Reads.many hobjects fun o ho => readObject_reads (h.2 o ho)).map rfl

/-! ### What the functions accept -/

theorem fwrite_ensures (data : List UInt8) : Ensures (fwrite data) fun _ => data ≠ [] := by
  intro f f' _ h
  unfold fwrite at h
  split at h
  · cases h
  · assumption

/-- An empty string is not written. -/
theorem writeString_ensures (s : CString) : Ensures (writeString s) fun _ => 0 < s.val.length :=
  .bind (.true _) fun _ _ => (fwrite_ensures _).mono fun _ h => by
    by_contra hempty
    exact h (by rw [List.length_eq_zero_iff.mp (Nat.eq_zero_of_not_pos hempty), List.take_nil])

theorem writeObject_ensures (o : KTestObject) : Ensures (writeObject o) fun _ => 0 < o.name.val.length ∧ o.bytes ≠ [] :=
  .bind (writeString_ensures _) fun _ hname => .bind (.true _) fun _ _ => (fwrite_ensures _).mono fun _ h => ⟨hname, h⟩

theorem writeKTest_ensures (bo : KTest) : Ensures (writeKTest bo) fun _ =>
    (∀ s ∈ bo.args, 0 < s.val.length) ∧ ∀ o ∈ bo.objects, 0 < o.name.val.length ∧ o.bytes ≠ [] :=
  .bind (.true _) fun _ _ => .bind (.true _) fun _ _ => .bind (.true _) fun _ _ =>
    .bind (.forM writeString_ensures _) fun _ hargs => .bind (.true _) fun _ _ => .bind (.true _) fun _ _ =>
      .bind (.true _) fun _ _ => (Ensures.forM writeObject_ensures _).mono fun _ hobjects => ⟨hargs, hobjects⟩

/-- A string that has been read leaves room for its NUL. -/
theorem readString_ensures : Ensures readString fun s => s.val.length < 2 ^ 32 - 1 := by
  refine .bind (.true _) fun len _ => ?_
  by_cases hlen : len + 1 = 0
  · simp only [if_pos hlen]
    exact .bind (.throw _ _) fun _ h => False.elim h
  · simp only [if_neg hlen]
    refine .bind (.true _) fun value _ => .pure ?_
    have htake : (ofBuffer value.val).val.length ≤ value.val.length := (List.takeWhile_prefix _).length_le
    rw [value.2] at htake
    have hmax : len.toNat ≠ 2 ^ 32 - 1 := fun h => hlen (UInt32.toNat_inj.mp (by rw [UInt32.toNat_add, h]; rfl))
    have := len.toNat_lt
    omega

theorem readObject_ensures : Ensures readObject fun o => o.name.val.length < 2 ^ 32 - 1 :=
  .bind readString_ensures fun _ hname => .bind (.true _) fun _ _ => .bind (.true _) fun _ _ => .pure hname

theorem readKTest_ensures : Ensures readKTest fun bo =>
    (∀ s ∈ bo.args, s.val.length < 2 ^ 32 - 1) ∧ ∀ o ∈ bo.objects, o.name.val.length < 2 ^ 32 - 1 := by
  refine .bind (.true _) fun _ _ => .bind (.true _) fun version _ => ?_
  by_cases hversion : version > KTEST_VERSION
  · simp only [if_pos hversion]
    exact .bind (.throw _ _) fun _ h => False.elim h
  · simp only [if_neg hversion]
    exact .bind (.true _) fun _ _ => .bind (.many readString_ensures _) fun _ hargs => .bind (.true _) fun _ _ =>
      .bind (.true _) fun _ _ => .bind (.many readObject_ensures _) fun _ hobjects => .pure ⟨hargs, hobjects⟩

/-- A file that holds a test case passes the test for the header alone. -/
theorem isKTestFile_of_fromFile {f : File} {bo : KTest} (h : fromFile f = .ok bo) : isKTestFile f = true := by
  unfold fromFile at h
  split at h
  · rename_i rest hread
    obtain ⟨_, rest', hheader, -⟩ := bind_eq_ok hread
    rw [isKTestFile, hheader]
  · cases h

/-! ### The round trip -/

/-- The file is written, a test case with the same arguments, numbers and objects is read back from it, and what is left
    of it when bytes at its end are missing is rejected. -/
def RoundTrips (bo : KTest) : Prop :=
  ∃ file, toFile bo = .ok () file ∧
    (∃ res, fromFile file = .ok res ∧ res.args = bo.args ∧ res.symArgvs = bo.symArgvs ∧
      res.symArgvLen = bo.symArgvLen ∧ res.objects = bo.objects) ∧
    ∀ front, front <+: file → front ≠ file → fromFile front = .error .rejected

/-- A test case survives its file if and only if no string and no contents in it are empty and no string is so long that
    its length and its NUL do not fit an `unsigned`. -/
theorem roundTrips_iff (bo : KTest) : RoundTrips bo ↔ Storable bo := by
  constructor
  · rintro ⟨file, hfile, ⟨res, hres, hargs, -, -, hobjects⟩, -⟩
    obtain ⟨hwargs, hwobjects⟩ := writeKTest_ensures bo _ _ _ hfile
    have hread : (∀ s ∈ res.args, s.val.length < 2 ^ 32 - 1) ∧ ∀ o ∈ res.objects, o.name.val.length < 2 ^ 32 - 1 := by
      unfold fromFile at hres
      split at hres
      · rename_i rest h
        obtain rfl := Except.ok.inj hres
        exact readKTest_ensures _ _ _ h
      · cases hres
    rw [hargs, hobjects] at hread
    exact ⟨fun s hs => ⟨hwargs s hs, hread.1 s hs⟩,
      fun o ho => ⟨⟨(hwobjects o ho).1, hread.2 o ho⟩, (hwobjects o ho).2⟩⟩
  · intro h
    have hreads := readKTest_reads h
    refine ⟨code bo, toFile_eq h, ⟨{ bo with version := KTEST_VERSION }, ?_, rfl, rfl, rfl, rfl⟩, ?_⟩
    · have hwhole := hreads.whole []
      rw [List.append_nil] at hwhole
      simp only [fromFile, hwhole]
    · rintro front ⟨back, hback⟩ hne
      obtain ⟨rest, hrest⟩ := hreads.cut hback.symm fun hnil => hne (by rw [← hback, hnil, List.append_nil])
      simp only [fromFile, hrest]

/-- A test case with one empty argument. -/
def emptyArgument : KTest where
  version := 3
  args := [⟨[], List.not_mem_nil⟩]
  numArgs_lt := by decide
  symArgvs := 0
  symArgvLen := 0
  objects := []
  numObjects_lt := by decide

/-- Its file is given up after the length of the argument. -/
theorem emptyArgument_not_written : (∃ file, toFile emptyArgument = .error () file) ∧ ¬RoundTrips emptyArgument := by
  have hfile : toFile emptyArgument =
      .error () (KTEST_MAGIC ++ [0, 0, 0, 3] ++ [0, 0, 0, 1] ++ [0, 0, 0, 0]) := by rfl
  refine ⟨⟨_, hfile⟩, ?_⟩
  rintro ⟨file, h, -⟩
  rw [hfile] at h
  cases h

end CapTaint.KTest
