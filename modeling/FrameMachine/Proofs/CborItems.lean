import FrameMachine.Cbor.Decode
import FrameMachine.Proofs.ByteStrings
/-!
# Reading what was written

Heads in shortest form read back as they were written. `Spells` says that bytes read as an item
wherever enough levels of nesting are left and whatever follows them; it is shown for integers,
strings and arrays, and for records from the items of their fields.
-/
namespace FrameMachine.Cbor

def shortInfo (n : Nat) : Nat :=
  if n < 24 then n
  else if n < 0x100 then 24
  else if n < 0x10000 then 25
  else if n < 0x100000000 then 26
  else 27

private theorem shortInfo_lt (n : Nat) : shortInfo n < 28 := by
  unfold shortInfo
  repeat' split
  all_goals omega

namespace Head

private theorem toNat_initialByte (major : Major) {info : Nat} (h : info < 32) :
    (initialByte major info).toNat = 32 * major.ctorIdx + info := by
  have hlt : major.ctorIdx < 8 := by cases major <;> decide
  rw [initialByte, UInt8.toNat_ofNat']
  omega

private theorem majorOf_initialByte (major : Major) {info : Nat} (h : info < 32) :
    majorOf (initialByte major info) = major := by
  have hdiv : (initialByte major info).toNat / 32 = major.ctorIdx := by
    rw [toNat_initialByte major h]
    omega
  rw [majorOf, hdiv]
  cases major <;> rfl

private theorem info_initialByte (major : Major) {info : Nat} (h : info < 32) :
    (initialByte major info).toNat % 32 = info := by
  rw [toNat_initialByte major h]
  omega

private theorem read_wide {major : Major} (hmajor : major ≠ .other) (width : Nat)
    (hwidth : width < 4) {n : Nat} (h : n < 256 ^ (1 <<< width)) (rest : List UInt8) :
    read (initialByte major (24 + width) :: (Bytes.bigEndian (1 <<< width) n ++ rest)) =
      some (⟨major, 24 + width, n⟩, rest) := by
  have htake : Bytes.take? (1 <<< width) (Bytes.bigEndian (1 <<< width) n ++ rest) =
      some (Bytes.bigEndian (1 <<< width) n, rest) :=
    Bytes.take?_append _ (Bytes.length_bigEndian _ _) rest
  rw [read, majorOf_initialByte major (by omega), info_initialByte major (by omega)]
  simp only
  rw [if_neg (by omega), if_pos (by omega), Nat.add_sub_cancel_left, htake]
  simp [Bytes.ofBigEndian_bigEndian h, hmajor]

theorem read_head (major : Major) (hmajor : major ≠ .other) {n : Nat} (h : n < 2 ^ 64)
    (rest : List UInt8) :
    read (head major n ++ rest) = some (⟨major, shortInfo n, n⟩, rest) := by
  unfold head shortInfo
  split
  · rename_i hsmall
    rw [List.singleton_append, read, majorOf_initialByte major (by omega),
      info_initialByte major (by omega)]
    simp [hsmall]
  split
  · exact read_wide hmajor 0 (by decide) (by omega) rest
  split
  · exact read_wide hmajor 1 (by decide) (by omega) rest
  split
  · exact read_wide hmajor 2 (by decide) (by omega) rest
  · exact read_wide hmajor 3 (by decide) (by omega) rest

private theorem not_isIndefinite (major : Major) (n : Nat) :
    (⟨major, shortInfo n, n⟩ : Head).isIndefinite = false := by
  have h := shortInfo_lt n
  simp only [isIndefinite, decide_eq_false_iff_not]
  omega

end Head

/-- Where `depth` more levels may be opened, the bytes read as the item, whatever follows. -/
def Spells (depth : Nat) (bytes : List UInt8) (item : Item) : Prop :=
  ∀ fuel level tagged rest, depth < fuel → level + depth ≤ maxNesting →
    Item.read fuel level tagged (bytes ++ rest) = some (item, rest)

theorem Spells.mono {depth more : Nat} {bytes : List UInt8} {item : Item}
    (h : Spells depth bytes item) (hle : depth ≤ more) : Spells more bytes item :=
  fun fuel level tagged rest hfuel hlevel => h fuel level tagged rest (by omega) (by omega)

theorem Spells.parse? {depth : Nat} {bytes : List UInt8} {item : Item}
    (h : Spells depth bytes item) (hdepth : depth ≤ maxNesting) :
    Item.parse? bytes = some item := by
  have hread := h Item.fuel 0 false [] (by rw [Item.fuel]; omega) (by omega)
  rw [List.append_nil] at hread
  rw [Item.parse?, hread]

theorem spells_unsigned {n : Nat} (h : n < 2 ^ 64) :
    Spells 0 (head .unsigned n) (.unsigned n) := by
  intro fuel level tagged rest hfuel _
  obtain ⟨fuel, rfl⟩ := Nat.exists_eq_succ_of_ne_zero (Nat.ne_zero_of_lt hfuel)
  simp [Item.read, Head.read_head .unsigned (by decide) h]

private theorem spells_negative {n : Nat} (h : n < 2 ^ 64) :
    Spells 0 (head .negative n) (.negative n) := by
  intro fuel level tagged rest hfuel _
  obtain ⟨fuel, rfl⟩ := Nat.exists_eq_succ_of_ne_zero (Nat.ne_zero_of_lt hfuel)
  simp [Item.read, Head.read_head .negative (by decide) h]

theorem spells_null : Spells 0 null (.simple 22) := by
  intro fuel level tagged rest hfuel _
  obtain ⟨fuel, rfl⟩ := Nat.exists_eq_succ_of_ne_zero (Nat.ne_zero_of_lt hfuel)
  rfl

private theorem chunks_definite (major : Major) (content rest : List UInt8) :
    chunks ⟨major, shortInfo content.length, content.length⟩ (content ++ rest) =
      some ([content], rest) := by
  simp [chunks, Head.not_isIndefinite, Bytes.take?_append content rfl]

theorem spells_bytes {b : List UInt8} (h : b.length < 2 ^ 64) :
    Spells 0 (bytes b) (.bytes b) := by
  intro fuel level tagged rest hfuel _
  obtain ⟨fuel, rfl⟩ := Nat.exists_eq_succ_of_ne_zero (Nat.ne_zero_of_lt hfuel)
  simp [Item.read, bytes, Head.read_head .bytes (by decide) h, chunks_definite]

private theorem spells_text {s : String} (h : (Bytes.ofString s).length < 2 ^ 64) :
    Spells 0 (text s) (.text [Bytes.ofString s]) := by
  intro fuel level tagged rest hfuel _
  obtain ⟨fuel, rfl⟩ := Nat.exists_eq_succ_of_ne_zero (Nat.ne_zero_of_lt hfuel)
  simp [Item.read, text, Head.read_head .text (by decide) h, chunks_definite]

structure Part where
  bytes : List UInt8
  item : Item

private theorem readMany_spells {depth fuel level : Nat} (hfuel : depth < fuel)
    (hlevel : level + depth ≤ maxNesting) (parts : List Part)
    (h : ∀ part ∈ parts, Spells depth part.bytes part.item) (done : List Item)
    (rest : List UInt8) :
    readMany (Item.read fuel level false) parts.length done
      (parts.flatMap Part.bytes ++ rest) = some (done.reverse ++ parts.map Part.item, rest) := by
  induction parts generalizing done with
  | nil => simp [readMany]
  | cons part parts ih =>
      obtain ⟨hpart, hparts⟩ := List.forall_mem_cons.mp h
      have hfirst := hpart fuel level false (parts.flatMap Part.bytes ++ rest) hfuel hlevel
      rw [List.flatMap_cons, List.append_assoc, List.length_cons, readMany, hfirst]
      simp only
      rw [ih hparts]
      simp

theorem spells_array {depth : Nat} {parts : List Part}
    (h : ∀ part ∈ parts, Spells depth part.bytes part.item) (hcount : parts.length ≤ maxElements) :
    Spells (depth + 1) (head .array parts.length ++ parts.flatMap Part.bytes)
      (.array (parts.map Part.item)) := by
  intro fuel level tagged rest hfuel hlevel
  obtain ⟨fuel, rfl⟩ := Nat.exists_eq_succ_of_ne_zero (Nat.ne_zero_of_lt hfuel)
  have hmany := readMany_spells (by omega : depth < fuel)
    (by omega : level + 1 + depth ≤ maxNesting) parts h [] rest
  have hhead := Head.read_head .array (by decide)
    (by rw [maxElements] at hcount; omega : parts.length < 2 ^ 64)
    (parts.flatMap Part.bytes ++ rest)
  have hroom : level < maxNesting := by omega
  simp [Item.read, hhead, hroom, elements, Head.not_isIndefinite, hcount, hmany]

/-- Nothing that starts with these bytes reads as an item. -/
def Unreadable (bytes : List UInt8) : Prop :=
  ∀ fuel level tagged rest, Item.read fuel level tagged (bytes ++ rest) = none

theorem Unreadable.append {bytes : List UInt8} (h : Unreadable bytes) (more : List UInt8) :
    Unreadable (bytes ++ more) := by
  intro fuel level tagged rest
  rw [List.append_assoc]
  exact h fuel level tagged (more ++ rest)

theorem Unreadable.parse? {bytes : List UInt8} (h : Unreadable bytes) :
    Item.parse? bytes = none := by
  have hread := h Item.fuel 0 false []
  rw [List.append_nil] at hread
  rw [Item.parse?, hread]

/-- An array with more elements than allowed is refused as soon as its head is read. -/
theorem unreadable_array {n : Nat} (hcount : maxElements < n) (h : n < 2 ^ 64) :
    Unreadable (head .array n) := by
  intro fuel level tagged rest
  cases fuel with
  | zero => rfl
  | succ fuel =>
      have hover : ¬ n ≤ maxElements := by omega
      simp [Item.read, Head.read_head .array (by decide) h, elements,
        Head.not_isIndefinite, hover]

def Item.ofInt (n : Int) : Item :=
  if 0 ≤ n then .unsigned n.toNat else .negative (-1 - n).toNat

private theorem int?_ofInt (n : Int) : (Item.ofInt n).int? = some n := by
  unfold Item.ofInt
  split
  · rename_i h
    simp [Item.int?, Item.content?, Content.int?, Int.toNat_of_nonneg h]
  · rename_i h
    have hneg : ((-1 - n).toNat : Int) = -1 - n := Int.toNat_of_nonneg (by omega)
    simp only [Item.int?, Item.content?, Content.int?, Option.bind_some, hneg]
    congr 1
    omega

theorem spells_word (w : Word) : Spells 0 (word w) (.ofInt w.toInt) := by
  have hlow := w.le_toInt
  have hhigh := w.toInt_lt
  unfold word int Item.ofInt
  split
  · exact spells_unsigned (by omega)
  · exact spells_negative (by omega)

theorem word?_ofInt (w : Word) : (Item.ofInt w.toInt).word? = some w := by
  have hrange : -0x8000000000000000 ≤ w.toInt ∧ w.toInt < 0x8000000000000000 :=
    ⟨w.le_toInt, w.toInt_lt⟩
  rw [Item.word?, int?_ofInt, Option.bind_some, Word.ofInt?, if_pos hrange, Int64.ofInt_toInt]

namespace Record

structure Field where
  name : String
  value : Part

def Field.ofWord (name : String) (w : Word) : Field := ⟨name, ⟨word w, .ofInt w.toInt⟩⟩

def write (fields : List Field) : List UInt8 :=
  head .map fields.length ++ fields.flatMap fun f => text f.name ++ f.value.bytes

def item (fields : List Field) : Item :=
  .map (fields.flatMap fun f => [.text [Bytes.ofString f.name], f.value.item])

/-- Names that can stand for fields: short enough for a head and in lower case. -/
def Proper (names : List String) : Prop :=
  ∀ name ∈ names, (Bytes.ofString name).length < 2 ^ 64 ∧
    (Bytes.ofString name).map lowerByte = Bytes.ofString name

instance (names : List String) : Decidable (Proper names) :=
  inferInstanceAs (Decidable (∀ name ∈ names, _))

variable {names : List String} {fields : List Field}

theorem spells_write {depth : Nat} (hproper : Proper names)
    (hnames : ∀ f ∈ fields, f.name ∈ names)
    (h : ∀ f ∈ fields, Spells depth f.value.bytes f.value.item)
    (hcount : fields.length ≤ maxElements) :
    Spells (depth + 1) (write fields) (item fields) := by
  intro fuel level tagged rest hfuel hlevel
  obtain ⟨fuel, rfl⟩ := Nat.exists_eq_succ_of_ne_zero (Nat.ne_zero_of_lt hfuel)
  let parts := fields.flatMap fun f =>
    [⟨text f.name, .text [Bytes.ofString f.name]⟩, f.value]
  have hparts : ∀ part ∈ parts, Spells depth part.bytes part.item := by
    intro part hpart
    obtain ⟨f, hf, hpart⟩ := List.mem_flatMap.mp hpart
    simp only [List.mem_cons, List.not_mem_nil, or_false] at hpart
    rcases hpart with rfl | rfl
    · exact (spells_text (hproper f.name (hnames f hf)).1).mono (Nat.zero_le depth)
    · exact h f hf
  have hlength : parts.length = 2 * fields.length := by
    simp [parts, List.length_flatMap, List.map_const', Nat.mul_comm]
  have hbytes : parts.flatMap Part.bytes =
      fields.flatMap fun f => text f.name ++ f.value.bytes := by
    simp [parts, List.flatMap_assoc]
  have hitems : parts.map Part.item =
      fields.flatMap fun f => [.text [Bytes.ofString f.name], f.value.item] := by
    simp [parts, List.map_flatMap]
  have hmany := readMany_spells (by omega : depth < fuel)
    (by omega : level + 1 + depth ≤ maxNesting) parts hparts [] rest
  rw [hlength, hbytes, hitems] at hmany
  have hhead := Head.read_head .map (by decide)
    (by rw [maxElements] at hcount; omega : fields.length < 2 ^ 64)
    ((fields.flatMap fun f => text f.name ++ f.value.bytes) ++ rest)
  have hroom : level < maxNesting := by omega
  have heven : (fields.flatMap fun f =>
      [Item.text [Bytes.ofString f.name], f.value.item]).length % 2 = 0 := by
    rw [← hitems, List.length_map, hlength]
    omega
  have hdouble : 2 * fields.length ≤ 2 * maxElements := Nat.mul_le_mul_left 2 hcount
  simp only [Item.read, write, item, List.append_assoc, hhead, Option.bind_eq_bind,
    Option.bind_some, if_pos hroom, elements, Head.not_isIndefinite, Bool.false_eq_true, if_false,
    if_pos hdouble, hmany, List.reverse_nil, List.nil_append, if_pos heven]

theorem unreadable_write {f : Field} (hname : (Bytes.ofString f.name).length < 2 ^ 64)
    (h : Unreadable f.value.bytes) (hcount : fields.length < maxElements) :
    Unreadable (write (f :: fields)) := by
  intro fuel level tagged rest
  cases fuel with
  | zero => rfl
  | succ fuel =>
      have hhead := Head.read_head .map (by decide)
        (by rw [maxElements] at hcount; omega : fields.length + 1 < 2 ^ 64)
        (text f.name ++ (f.value.bytes ++
          ((fields.flatMap fun f => text f.name ++ f.value.bytes) ++ rest)))
      have hmany (n : Nat) (hroom : level < maxNesting) (more : List UInt8) :
          readMany (Item.read fuel (level + 1) false) (n + 2) []
            (text f.name ++ (f.value.bytes ++ more)) = none := by
        cases fuel with
        | zero => rfl
        | succ fuel =>
            have hkey := spells_text hname (fuel + 1) (level + 1) false (f.value.bytes ++ more)
              (Nat.succ_pos fuel) hroom
            rw [readMany, hkey]
            simp only
            rw [readMany, h]
      have hdouble : 2 * (fields.length + 1) ≤ 2 * maxElements := Nat.mul_le_mul_left 2 hcount
      simp only [Item.read, write, List.length_cons, List.flatMap_cons, List.append_assoc, hhead,
        Option.bind_eq_bind, Option.bind_some, elements, Head.not_isIndefinite,
        Bool.false_eq_true, if_false, if_pos hdouble]
      split
      · rename_i hroom
        rw [Nat.mul_add, hmany _ hroom]
        rfl
      · rfl

private theorem key?_name (hproper : Proper names) {name : String} (hname : name ∈ names) :
    key? names (.text [Bytes.ofString name]) = some (some name) := by
  have hfind : fieldNamed? names (Bytes.ofString name) = some name := by
    unfold fieldNamed?
    rw [(hproper name hname).2]
    cases hfound : names.find? fun other => Bytes.ofString other == Bytes.ofString name with
    | none => simpa using List.find?_eq_none.mp hfound name hname
    | some other =>
        have heq : Bytes.ofString other = Bytes.ofString name := by
          simpa using List.find?_some hfound
        rw [Bytes.ofString_injective heq]
  simp [key?, Bytes.isSome_toString?_ofString, hfind]

private theorem collect_item (hproper : Proper names) (hnames : ∀ f ∈ fields, f.name ∈ names)
    (hnodup : (fields.map Field.name).Nodup) (found : List (String × Item))
    (hnew : ∀ f ∈ fields, ∀ entry ∈ found, entry.1 ≠ f.name) :
    collect names (pairs (fields.flatMap fun f =>
        [.text [Bytes.ofString f.name], f.value.item])) found =
      some ((fields.map fun f => (f.name, f.value.item)).reverse ++ found) := by
  induction fields generalizing found with
  | nil => rfl
  | cons f fields ih =>
      obtain ⟨hname, hnames'⟩ := List.forall_mem_cons.mp hnames
      obtain ⟨hnew', hnews⟩ := List.forall_mem_cons.mp hnew
      rw [List.map_cons, List.nodup_cons] at hnodup
      have hany : (found.any fun entry => entry.1 == f.name) = false := by
        simpa using fun a b hab => hnew' (a, b) hab
      have hrest : ∀ other ∈ fields, ∀ entry ∈ (f.name, f.value.item) :: found,
          entry.1 ≠ other.name := by
        intro other hother entry hentry
        rcases List.mem_cons.mp hentry with rfl | hentry
        · intro heq
          exact hnodup.1 (List.mem_map.mpr ⟨other, hother, heq.symm⟩)
        · exact hnews other hother entry hentry
      simp only [List.flatMap_cons, List.cons_append, List.nil_append, pairs, collect,
        key?_name hproper hname, hany, Bool.false_eq_true, if_false]
      rw [ih hnames' hnodup.2 _ hrest]
      simp

/-- The fields of a written record are found again, the last one first. -/
theorem fields?_item (fields : List Field) (hproper : Proper names)
    (hnames : ∀ f ∈ fields, f.name ∈ names) (hnodup : (fields.map Field.name).Nodup) :
    fields? names (item fields) = some (fields.map fun f => (f.name, f.value.item)).reverse := by
  have hcollect := collect_item hproper hnames hnodup [] nofun
  rw [List.append_nil] at hcollect
  simp [fields?, item, Item.content?, Content.isNull, hcollect]

end Record
end FrameMachine.Cbor
