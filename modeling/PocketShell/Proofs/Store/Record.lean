import PocketShell.Proofs.Snapshot.Text
import PocketShell.Store

/-!
# Stored records are read back

A record is read back from its octets, whatever follows them, and no part of them that is cut off
is taken for a record. Both hold of every field, since a field says by itself where it ends; and
what holds of two readers holds of the one that reads first with one and then with the other.
-/

namespace PocketShell.Store

namespace Record

/-! ## Readers that know where to stop -/

variable {α β : Type}

/-- The reader takes exactly these octets for the value, and refuses them when they are cut off. -/
structure Delimits (read : List UInt8 → Option (α × List UInt8)) (octets : List UInt8)
    (value : α) : Prop where
  read_append : ∀ rest, read (octets ++ rest) = some (value, rest)
  read_cut : ∀ part, part <+: octets → part ≠ octets → read part = none

/-- What begins `xs ++ ys` ends in `xs` or goes on into `ys`. -/
theorem prefix_append_cases {xs ys part : List α} (h : part <+: xs ++ ys) :
    (part <+: xs ∧ part ≠ xs) ∨ ∃ more, part = xs ++ more ∧ more <+: ys := by
  by_cases hlength : xs.length ≤ part.length
  · obtain ⟨more, rfl⟩ := List.prefix_of_prefix_length_le (List.prefix_append xs ys) h hlength
    exact .inr ⟨more, rfl, (List.prefix_append_right_inj xs).1 h⟩
  · refine .inl ⟨List.prefix_of_prefix_length_le h (List.prefix_append xs ys) (by omega), ?_⟩
    rintro rfl
    exact hlength (Nat.le_refl _)

/-- One reader after another. -/
theorem Delimits.bind {read : List UInt8 → Option (α × List UInt8)} {octets more : List UInt8}
    {value : α} {f : α → List UInt8 → Option (β × List UInt8)} {result : β}
    (h : Delimits read octets value) (hnext : Delimits (f value) more result) :
    Delimits (fun input => (read input).bind fun first => f first.1 first.2)
      (octets ++ more) result where
  read_append rest := by
    rw [List.append_assoc, h.read_append, Option.bind_some, hnext.read_append]
  read_cut part hpart hne := by
    rcases prefix_append_cases hpart with ⟨hcut, hcutne⟩ | ⟨left, rfl, hleft⟩
    · rw [h.read_cut part hcut hcutne, Option.bind_none]
    · rw [h.read_append, Option.bind_some]
      refine hnext.read_cut left hleft fun heq => hne ?_
      rw [heq]

/-- A reader whose value is changed by a function that does not fail on it. -/
theorem Delimits.filterMap {read : List UInt8 → Option (α × List UInt8)} {octets : List UInt8}
    {value : α} {f : α → Option β} {result : β} (h : Delimits read octets value)
    (hf : f value = some result) :
    Delimits (fun input => (read input).bind fun first => (f first.1).bind fun changed =>
      some (changed, first.2)) octets result where
  read_append rest := by rw [h.read_append, Option.bind_some, hf, Option.bind_some]
  read_cut part hpart hne := by rw [h.read_cut part hpart hne, Option.bind_none]

/-! ## Numbers -/

theorem length_littleEndian (width n : Nat) : (littleEndian width n).length = width := by
  induction width generalizing n with
  | zero => rfl
  | succ width ih => rw [littleEndian, List.length_cons, ih]

/-- Octets that are too few for a number keep its low part. -/
theorem ofLittleEndian_littleEndian (width n : Nat) :
    ofLittleEndian (littleEndian width n) = n % 256 ^ width := by
  induction width generalizing n with
  | zero => rw [Nat.pow_zero, Nat.mod_one]; rfl
  | succ width ih =>
    have hoctet : (UInt8.ofNat (n % 256)).toNat = n % 256 := by
      rw [UInt8.toNat_ofNat', Nat.mod_mod]
    rw [littleEndian, ofLittleEndian, ih, hoctet, Nat.pow_succ, Nat.mul_comm (256 ^ width),
      Nat.mod_mul]

theorem take?_append {xs : List UInt8} (rest : List UInt8) :
    take? xs.length (xs ++ rest) = some (xs, rest) := by
  rw [take?, if_pos (by simp), List.splitAt_eq, List.take_left, List.drop_left]

theorem take?_eq_none {n : Nat} {xs : List UInt8} (h : xs.length < n) : take? n xs = none := by
  rw [take?, if_neg (by omega)]

theorem delimits_take? (octets : List UInt8) : Delimits (take? octets.length) octets octets where
  read_append := take?_append
  read_cut part hpart hne := by
    refine take?_eq_none (Nat.lt_of_le_of_ne hpart.length_le fun heq => hne ?_)
    exact hpart.eq_of_length heq

/-- A number of the given width behind the octet that tells it. -/
theorem delimits_wide (first : UInt8) (width n : Nat) (hwidth : width? first = some (width + 1)) :
    Delimits readNumber? (first :: littleEndian (width + 1) n) (n % 256 ^ (width + 1)) := by
  have hread : ∀ octets, readNumber? (first :: octets) =
      (take? (width + 1) octets).map fun taken => (ofLittleEndian taken.1, taken.2) := by
    intro octets
    simp only [readNumber?, hwidth]
  have htake := delimits_take? (littleEndian (width + 1) n)
  rw [length_littleEndian] at htake
  constructor
  · intro rest
    rw [List.cons_append, hread, htake.read_append, Option.map_some]
    simp only [ofLittleEndian_littleEndian]
  · intro part hpart hne
    cases part with
    | nil => rfl
    | cons octet octets =>
      obtain ⟨rfl, hoctets⟩ := List.cons_prefix_cons.1 hpart
      rw [hread, htake.read_cut octets hoctets fun heq => hne (by rw [heq]), Option.map_none]

theorem delimits_narrow {n : Nat} (h : n < 251) : Delimits readNumber? [UInt8.ofNat n] n := by
  have hn : (UInt8.ofNat n).toNat = n := by rw [UInt8.toNat_ofNat']; omega
  have hwidth : width? (UInt8.ofNat n) = some 0 := by
    rw [width?, if_pos]
    rw [UInt8.lt_iff_toNat_lt, hn]
    exact h
  constructor
  · intro rest
    rw [List.singleton_append, readNumber?, hwidth]
    simp only [hn]
  · intro part hpart hne
    rcases List.prefix_cons_iff.1 hpart with rfl | ⟨_, rfl, hnil⟩
    · rfl
    · rw [List.prefix_nil.1 hnil] at hne
      exact absurd rfl hne

/-- A number is read back up to what lies beyond 64 bits. -/
theorem delimits_writeNumber (n : Nat) :
    Delimits readNumber? (writeNumber n) (n % Snapshot.addressable) := by
  unfold writeNumber Snapshot.addressable
  split
  · rw [Nat.mod_eq_of_lt (by omega)]
    exact delimits_narrow (by omega)
  split
  · have hwide := delimits_wide 251 1 n rfl
    rwa [Nat.mod_eq_of_lt (by omega)] at hwide ⊢
  split
  · have hwide := delimits_wide 252 3 n rfl
    rwa [Nat.mod_eq_of_lt (by omega)] at hwide ⊢
  · exact delimits_wide 253 7 n rfl

/-! ## Signed numbers -/

theorem unzigzag_zigzag (i : Int) : unzigzag (zigzag i) = i := by
  cases i with
  | ofNat n =>
    rw [zigzag, unzigzag, if_pos (by omega)]
    congr 1
    omega
  | negSucc n =>
    rw [zigzag, unzigzag, if_neg (by omega)]
    congr 1
    omega

theorem zigzag_toInt_lt (i : Int64) : zigzag i.toInt < Snapshot.addressable := by
  have hle := i.le_toInt
  have hlt := i.toInt_lt
  unfold Snapshot.addressable
  cases hi : i.toInt with
  | ofNat n =>
    rw [hi, Int.ofNat_eq_natCast] at hlt
    rw [zigzag]
    omega
  | negSucc n =>
    rw [hi] at hle
    rw [zigzag]
    omega

/-! ## Texts -/

theorem length_utf8 (text : String) : (Text.utf8 text).length = text.utf8ByteSize := by
  rw [Text.utf8, Array.length_toList]
  rfl

theorem ofUtf8?_utf8 (text : String) : Text.ofUtf8? (Text.utf8 text) = some text := by
  rw [Text.utf8, Text.ofUtf8?, Array.toArray_toList, String.fromUTF8?,
    dif_pos text.isValidUTF8]
  rfl

theorem delimits_writeText {text : String} (h : text.utf8ByteSize < Snapshot.addressable) :
    Delimits readText? (writeText text) text := by
  have hnumber := delimits_writeNumber (Text.utf8 text).length
  rw [Nat.mod_eq_of_lt (by rw [length_utf8]; exact h)] at hnumber
  exact hnumber.bind (f := fun length input => (take? length input).bind fun octets =>
      (Text.ofUtf8? octets.1).bind fun text => some (text, octets.2))
    ((delimits_take? (Text.utf8 text)).filterMap (ofUtf8?_utf8 text))

/-! ## Records -/

/-- A record whose texts a machine of 64 bits can hold. -/
structure Storable (record : Record) : Prop where
  user_lt : record.user.utf8ByteSize < Snapshot.addressable
  snapshot_lt : record.snapshot.utf8ByteSize < Snapshot.addressable

/-- The time as it is read back. -/
def readSeconds (seconds : Int) : Int :=
  unzigzag (zigzag seconds % Snapshot.addressable)

theorem readSeconds_toInt (seconds : Int64) : readSeconds seconds.toInt = seconds.toInt := by
  rw [readSeconds, Nat.mod_eq_of_lt (zigzag_toInt_lt seconds), unzigzag_zigzag]

/-- The reader of records, with what follows the record. -/
def readWithRest? (octets : List UInt8) : Option (Record × List UInt8) :=
  (readText? octets).bind fun user =>
    (readNumber? user.2).bind fun seconds =>
      (readText? seconds.2).bind fun snapshot =>
        some (⟨user.1, unzigzag seconds.1, snapshot.1⟩, snapshot.2)

theorem read?_eq (octets : List UInt8) : read? octets = (readWithRest? octets).map (·.1) := by
  simp only [read?, readWithRest?, Option.map_bind, bind, pure, Function.comp_def, Option.map_some]

theorem Storable.delimits {record : Record} (h : record.Storable) :
    Delimits readWithRest? record.write { record with seconds := readSeconds record.seconds } := by
  have hsnapshot := (delimits_writeText h.snapshot_lt).filterMap
    (f := fun snapshot => some (Record.mk record.user (readSeconds record.seconds) snapshot)) rfl
  have hseconds := (delimits_writeNumber (zigzag record.seconds)).bind
    (f := fun number input => (readText? input).bind fun snapshot =>
      some (Record.mk record.user (unzigzag number) snapshot.1, snapshot.2)) hsnapshot
  rw [write, List.append_assoc]
  exact (delimits_writeText h.user_lt).bind
    (f := fun user input => (readNumber? input).bind fun seconds =>
      (readText? seconds.2).bind fun snapshot =>
        some (Record.mk user (unzigzag seconds.1) snapshot.1, snapshot.2)) hseconds

theorem Storable.read?_write {record : Record} (h : record.Storable) (rest : List UInt8) :
    read? (record.write ++ rest) =
      some { record with seconds := readSeconds record.seconds } := by
  rw [read?_eq, h.delimits.read_append, Option.map_some]

theorem Storable.read?_cut {record : Record} (h : record.Storable) {part : List UInt8}
    (hpart : part <+: record.write) (hne : part ≠ record.write) : read? part = none := by
  rw [read?_eq, h.delimits.read_cut part hpart hne, Option.map_none]

end Record

/-! ## Loading -/

variable {store : Store} {disk : Disk} {user : String}

theorem load_of_read {content : Except Disk.Fault (List UInt8)} (huser : Path.isName user)
    (h : disk.read (store.file user) = content) :
    store.load disk user = store.snapshotOf user content := by
  rw [load, if_pos huser, h]

/-- What is loaded from a file that starts with a record. -/
theorem load_of_written {record : Record} {rest : List UInt8} (huser : Path.isName user)
    (hrecord : record.Storable) (h : disk.read (store.file user) = .ok (record.write ++ rest)) :
    store.load disk user =
      if record.user = user then .ok (some record.snapshot)
      else .error (.foreign (Disk.shown (store.file user)) record.user) := by
  rw [load_of_read huser h, snapshotOf]
  simp only [hrecord.read?_write]

/-- What is loaded from a file in which a record is cut off. -/
theorem load_of_cut {record : Record} {part : List UInt8} (huser : Path.isName user)
    (hrecord : record.Storable) (hpart : part <+: record.write) (hne : part ≠ record.write)
    (h : disk.read (store.file user) = .ok part) :
    store.load disk user = .error (.corrupt (Disk.shown (store.file user))) := by
  rw [load_of_read huser h, snapshotOf]
  simp only [hrecord.read?_cut hpart hne]

/-- A stored record is loaded by its user and by nobody else, with whatever follows it in the file,
and it is not loaded at all when it is cut off. The texts are ones that a machine of 64 bits can
hold. -/
theorem load_stored_record {snapshot : String} {seconds : Int64} (huser : Path.isName user)
    (hfits : Record.Storable ⟨user, seconds.toInt, snapshot⟩) :
    (∀ rest, Record.read? (Record.write ⟨user, seconds.toInt, snapshot⟩ ++ rest) =
      some ⟨user, seconds.toInt, snapshot⟩) ∧
    (∀ rest,
      disk.read (store.file user) = .ok (Record.write ⟨user, seconds.toInt, snapshot⟩ ++ rest) →
      store.load disk user = .ok (some snapshot)) ∧
    (∀ rest other, Path.isName other → other ≠ user →
      disk.read (store.file other) = .ok (Record.write ⟨user, seconds.toInt, snapshot⟩ ++ rest) →
      store.load disk other = .error (.foreign (Disk.shown (store.file other)) user)) ∧
    ∀ part other, Path.isName other → part <+: Record.write ⟨user, seconds.toInt, snapshot⟩ →
      part ≠ Record.write ⟨user, seconds.toInt, snapshot⟩ →
      disk.read (store.file other) = .ok part →
      store.load disk other = .error (.corrupt (Disk.shown (store.file other))) := by
  refine ⟨fun rest => ?_, fun rest hread => ?_, fun rest other hother hne hread => ?_,
    fun part other hother hpart hcut hread => ?_⟩
  · rw [hfits.read?_write, Record.readSeconds_toInt]
  · rw [load_of_written huser hfits hread, if_pos rfl]
  · rw [load_of_written hother hfits hread, if_neg (Ne.symm hne)]
  · exact load_of_cut hother hfits hpart hcut hread

/-- A record from before 1970. -/
def earlyRecord : Record := ⟨"ann", (-3000000000 : Int64).toInt, "[]"⟩

/-- The record of one user with more octets behind it, under the name of another user, and without
its last octet under that of a third. -/
def earlyDisk : Disk :=
  ⟨[(["s"], .directory),
    (["s", "ann.snapshot"], .file (earlyRecord.write ++ [0, 255])),
    (["s", "bob.snapshot"], .file earlyRecord.write),
    (["s", "cid.snapshot"], .file earlyRecord.write.dropLast)]⟩

theorem load_early_record :
    Store.load ⟨"/s"⟩ earlyDisk "ann" = .ok (some "[]") ∧
      Store.load ⟨"/s"⟩ earlyDisk "bob" = .error (.foreign "/s/bob.snapshot" "ann") ∧
      Store.load ⟨"/s"⟩ earlyDisk "cid" = .error (.corrupt "/s/cid.snapshot") := by
  obtain ⟨-, hown, hforeign, hcut⟩ :=
    @load_stored_record ⟨"/s"⟩ earlyDisk "ann" "[]" (-3000000000) (by decide)
      ⟨by decide, by decide⟩
  refine ⟨hown [0, 255] ?_, ?_, ?_⟩
  · decide +kernel
  · rw [hforeign [] "bob" (by decide) (by decide) (by decide +kernel)]
    decide +kernel
  · rw [hcut earlyRecord.write.dropLast "cid" (by decide) (List.dropLast_prefix _)
      (by decide +kernel) (by decide +kernel)]
    decide +kernel

end PocketShell.Store
