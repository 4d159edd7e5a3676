import Mathlib.Data.List.Basic
import Mathlib.Tactic.Ring
import Bareword.Cbor.Read

/-! # Items are read back

What `Item.encode` writes is what `Item.read` reads, whatever bytes come after it.

* `Item.Bounded`: the items whose numbers, lengths and nesting stay within the limits of reading.
* `readNested_encode`: a bounded item is read back in front of any bytes.
* `Item.ofBytes?_encode`: the bytes of a bounded item are that item.
-/

namespace Bareword.Cbor
set_option autoImplicit false

open Item

/-! ## Heads -/

theorem length_bigEndian (n value : Nat) : (bigEndian n value).length = n := by
  induction n generalizing value with
  | zero => rfl
  | succ n ih => simp [bigEndian, ih]

theorem foldl_bigEndian (n : Nat) {value : Nat} (h : value < 256 ^ n) :
    (bigEndian n value).foldl (fun acc b => acc * 256 + b.toNat) 0 = value := by
  induction n generalizing value with
  | zero => simp_all [bigEndian]
  | succ n ih =>
    have hdiv : value / 256 < 256 ^ n := by
      rw [Nat.div_lt_iff_lt_mul (by decide), ← pow_succ]
      exact h
    have hlast : (value % 256).toUInt8.toNat = value % 256 :=
      Nat.mod_eq_of_lt (Nat.mod_lt _ (by decide))
    rw [bigEndian, List.foldl_append, ih hdiv, List.foldl_cons, List.foldl_nil, hlast]
    omega

theorem readBigEndian_append (n value : Nat) (h : value < 256 ^ n) (rest : Text) :
    readBigEndian n (bigEndian n value ++ rest) = some (value, rest) := by
  have hlen := length_bigEndian n value
  rw [readBigEndian, if_neg (by simp [hlen]), List.take_left' hlen, List.drop_left' hlen,
    foldl_bigEndian n h]

theorem lead_fields {major info : Nat} (hmajor : major < 8) (hinfo : info < 32) :
    ∃ b : UInt8, (major * 32 + info).toUInt8 = b ∧ b.toNat / 32 = major ∧ b.toNat % 32 = info := by
  have : (major * 32 + info).toUInt8.toNat = major * 32 + info := Nat.mod_eq_of_lt (by omega)
  exact ⟨_, rfl, by omega, by omega⟩

/-- A head is read back, and what it opens has a known length. -/
theorem readHead_head {major n : Nat} (hmajor : major < 7) (hn : n < 2 ^ 64) (rest : Text) :
    ∃ info, info ≠ 31 ∧ readHead (head major n ++ rest) = some (⟨major, info, n⟩, rest) := by
  have hlead := fun info (h : info < 32) => lead_fields (show major < 8 by omega) h
  unfold head
  split_ifs with h1 h2 h3 h4
  · obtain ⟨b, hb, hdiv, hmod⟩ := hlead n (by omega)
    exact ⟨n, by omega, by simp only [hb]; simp [readHead, hdiv, hmod, h1]⟩
  · obtain ⟨b, hb, hdiv, hmod⟩ := hlead 24 (by omega)
    have hne : major ≠ 7 := by omega
    refine ⟨24, by omega, ?_⟩
    simp only [hb]
    simp [readHead, hdiv, hmod, readBigEndian_append 1 n h2, Option.filter, hne]
  · obtain ⟨b, hb, hdiv, hmod⟩ := hlead 25 (by omega)
    refine ⟨25, by omega, ?_⟩
    simp only [hb]
    simp [readHead, hdiv, hmod, readBigEndian_append 2 n h3]
  · obtain ⟨b, hb, hdiv, hmod⟩ := hlead 26 (by omega)
    refine ⟨26, by omega, ?_⟩
    simp only [hb]
    simp [readHead, hdiv, hmod, readBigEndian_append 4 n h4]
  · obtain ⟨b, hb, hdiv, hmod⟩ := hlead 27 (by omega)
    refine ⟨27, by omega, ?_⟩
    simp only [hb]
    simp [readHead, hdiv, hmod, readBigEndian_append 8 n hn]

theorem readHead_simple {n : Nat} (hn : n < 24) (rest : Text) :
    readHead (head 7 n ++ rest) = some (⟨7, n, n⟩, rest) := by
  obtain ⟨b, hb, hdiv, hmod⟩ := lead_fields (show 7 < 8 by omega) (show n < 32 by omega)
  simp only [head, hn, if_true, hb]
  simp [readHead, hdiv, hmod, hn]

theorem readHead_half {bits : Nat} (h : bits < 2 ^ 16) (rest : Text) :
    readHead (encode (.half bits) ++ rest) = some (⟨7, 25, bits⟩, rest) := by
  simp [encode, readHead, readBigEndian_append 2 bits h]

theorem readHead_single {bits : Nat} (h : bits < 2 ^ 32) (rest : Text) :
    readHead (encode (.single bits) ++ rest) = some (⟨7, 26, bits⟩, rest) := by
  simp [encode, readHead, readBigEndian_append 4 bits h]

theorem readHead_double {bits : Nat} (h : bits < 2 ^ 64) (rest : Text) :
    readHead (encode (.double bits) ++ rest) = some (⟨7, 27, bits⟩, rest) := by
  simp [encode, readHead, readBigEndian_append 8 bits h]

/-! ## Bounded items -/

/-- The items whose numbers, lengths and nesting stay within the limits of reading. The number
bounds how deep sequences and maps nest. -/
inductive Item.Bounded : Nat → Item → Prop
  | unsigned {depth n : Nat} (h : n < 2 ^ 64) : Bounded depth (.unsigned n)
  | negative {depth n : Nat} (h : n < 2 ^ 64) : Bounded depth (.negative n)
  | text {depth : Nat} {t : Text} (h : t.length < 2 ^ 64) : Bounded depth (.text [t])
  | array {depth : Nat} {items : List Item} (hlength : items.length ≤ maxElements)
      (hitems : ∀ item ∈ items, Bounded depth item) : Bounded (depth + 1) (.array items)
  | map {depth : Nat} {entries : List (Item × Item)} (hlength : entries.length ≤ maxElements)
      (hkeys : ∀ entry ∈ entries, Bounded depth entry.1)
      (hvalues : ∀ entry ∈ entries, Bounded depth entry.2) : Bounded (depth + 1) (.map entries)
  | simple {depth n : Nat} (h : n < 24) : Bounded depth (.simple n)
  | half {depth bits : Nat} (h : bits < 2 ^ 16) : Bounded depth (.half bits)
  | single {depth bits : Nat} (h : bits < 2 ^ 32) : Bounded depth (.single bits)
  | double {depth bits : Nat} (h : bits < 2 ^ 64) : Bounded depth (.double bits)

theorem maxElements_lt : maxElements < 2 ^ 64 := by decide

/-- The head of a bounded item is not that of a tag. -/
theorem Item.Bounded.readHead {depth : Nat} {item : Item} (h : item.Bounded depth) (rest : Text) :
    ∃ head after, Cbor.readHead (item.encode ++ rest) = some (head, after) ∧ head.major ≠ 6 := by
  have hhead : ∀ {major n : Nat}, major < 6 → n < 2 ^ 64 → ∀ rest, ∃ head after,
      Cbor.readHead (Item.head major n ++ rest) = some (head, after) ∧ head.major ≠ 6 := by
    intro major n hmajor hn rest
    obtain ⟨info, -, heq⟩ := readHead_head (by omega : major < 7) hn rest
    exact ⟨_, _, heq, by simp only; omega⟩
  cases h with
  | unsigned h => exact hhead (by decide) h rest
  | negative h => exact hhead (by decide) h rest
  | text h =>
    rw [encode, encodePieces, List.append_assoc]
    exact hhead (by decide) h _
  | array hlength =>
    rw [encode, List.append_assoc]
    exact hhead (by decide) (hlength.trans_lt maxElements_lt) _
  | map hlength =>
    rw [encode, List.append_assoc]
    exact hhead (by decide) (hlength.trans_lt maxElements_lt) _
  | simple h => exact ⟨_, _, readHead_simple h rest, by simp⟩
  | half h => exact ⟨_, _, readHead_half h rest, by simp⟩
  | single h => exact ⟨_, _, readHead_single h rest, by simp⟩
  | double h => exact ⟨_, _, readHead_double h rest, by simp⟩

theorem readTagged_encode {depth : Nat} {item : Item} (h : item.Bounded depth)
    (inner : Text → Option (Item × Text)) (rest : Text) :
    readTagged inner (item.encode ++ rest) = inner (item.encode ++ rest) := by
  obtain ⟨head, after, heq, hne⟩ := h.readHead rest
  simp only [readTagged, heq, if_neg hne]

/-! ## Sequences and maps -/

theorem encodeItems_eq (items : List Item) : encode.encodeItems items = items.flatMap encode := by
  induction items with
  | nil => rfl
  | cons item items ih => rw [encode.encodeItems, ih, List.flatMap_cons]

theorem encodeEntries_eq (entries : List (Item × Item)) :
    encode.encodeEntries entries = entries.flatMap fun entry => entry.1.encode ++ entry.2.encode := by
  induction entries with
  | nil => rfl
  | cons entry entries ih => rw [encode.encodeEntries, ih, List.flatMap_cons]

/-- Things that are read back one by one are read back together. -/
theorem readMany_flatMap {α : Type} {read : Text → Option (α × Text)} {write : α → Text}
    {xs : List α} (h : ∀ x ∈ xs, ∀ rest, read (write x ++ rest) = some (x, rest)) (rest : Text) :
    readMany read xs.length (xs.flatMap write ++ rest) = some (xs, rest) := by
  induction xs with
  | nil => rfl
  | cons x xs ih =>
    rw [List.length_cons, List.flatMap_cons, List.append_assoc, readMany, h x (by simp)]
    simp only [ih fun y hy => h y (by simp [hy]), Option.map_some]

/-- A sequence or a map of a known length within the limit is read thing by thing. -/
theorem readElements_flatMap {α : Type} {read : Text → Option (α × Text)} {write : α → Text}
    {xs : List α} (hlength : xs.length ≤ maxElements)
    (h : ∀ x ∈ xs, ∀ rest, read (write x ++ rest) = some (x, rest)) (major : Nat) {info : Nat}
    (hinfo : info ≠ 31) (rest : Text) :
    readElements read ⟨major, info, xs.length⟩ (xs.flatMap write ++ rest) = some (xs, rest) := by
  have hopen : Head.isOpen ⟨major, info, xs.length⟩ = false := by simpa [Head.isOpen] using hinfo
  rw [readElements, hopen, if_neg (by decide), if_neg (by simpa using hlength)]
  exact readMany_flatMap h rest

/-- A bounded item is read back in front of any bytes. -/
theorem readNested_encode {depth : Nat} {item : Item} (h : item.Bounded depth) (rest : Text) :
    readNested depth (item.encode ++ rest) = some (item, rest) := by
  have hnested : ∀ depth, ∃ inner, readNested depth = readItem inner := by
    rintro (_ | depth)
    exacts [⟨_, rfl⟩, ⟨_, rfl⟩]
  induction h generalizing rest with
  | @unsigned depth n h =>
    obtain ⟨inner, hinner⟩ := hnested depth
    obtain ⟨info, -, heq⟩ := readHead_head (show 0 < 7 by decide) h rest
    simp only [hinner, readItem, encode, heq]
  | @negative depth n h =>
    obtain ⟨inner, hinner⟩ := hnested depth
    obtain ⟨info, -, heq⟩ := readHead_head (show 1 < 7 by decide) h rest
    simp only [hinner, readItem, encode, heq]
  | @text depth t h =>
    obtain ⟨inner, hinner⟩ := hnested depth
    obtain ⟨info, hinfo, heq⟩ := readHead_head (show 3 < 7 by decide) h (t ++ rest)
    have hopen : Head.isOpen ⟨3, info, t.length⟩ = false := by simpa [Head.isOpen] using hinfo
    rw [hinner, readItem, encode, encodePieces, List.append_assoc, heq]
    simp [hopen, readPiece, heq]
  | @array depth items hlength hitems ih =>
    obtain ⟨info, hinfo, heq⟩ := readHead_head (show 4 < 7 by decide)
      (hlength.trans_lt maxElements_lt) (items.flatMap encode ++ rest)
    have hitem : ∀ item ∈ items, ∀ rest,
        readTagged (readNested depth) (item.encode ++ rest) = some (item, rest) :=
      fun item hitem rest => (readTagged_encode (hitems item hitem) _ rest).trans (ih item hitem rest)
    have hread := readElements_flatMap hlength hitem 4 hinfo rest
    simp only [readNested, readItem, encode, encodeItems_eq, List.append_assoc, heq,
      Option.bind_some, hread, Option.map_some]
  | @map depth entries hlength hkeys hvalues ihk ihv =>
    obtain ⟨info, hinfo, heq⟩ := readHead_head (show 5 < 7 by decide)
      (hlength.trans_lt maxElements_lt)
      ((entries.flatMap fun entry => entry.1.encode ++ entry.2.encode) ++ rest)
    have hentry : ∀ entry ∈ entries, ∀ rest, readEntry (readTagged (readNested depth))
        ((entry.1.encode ++ entry.2.encode) ++ rest) = some (entry, rest) := by
      intro entry hentry rest
      rw [readEntry, List.append_assoc, readTagged_encode (hkeys entry hentry), ihk entry hentry]
      simp only [readTagged_encode (hvalues entry hentry), ihv entry hentry, Option.map_some]
    have hread := readElements_flatMap hlength hentry 5 hinfo rest
    simp only [readNested, readItem, encode, encodeEntries_eq, List.append_assoc, heq,
      Option.bind_some, hread, Option.map_some]
  | @simple depth n h =>
    obtain ⟨inner, hinner⟩ := hnested depth
    simp only [hinner, readItem, encode, readHead_simple h]
    split
    iterate 3 omega
    rfl
  | @half depth bits h =>
    obtain ⟨inner, hinner⟩ := hnested depth
    simp only [hinner, readItem, readHead_half h]
  | @single depth bits h =>
    obtain ⟨inner, hinner⟩ := hnested depth
    simp only [hinner, readItem, readHead_single h]
  | @double depth bits h =>
    obtain ⟨inner, hinner⟩ := hnested depth
    simp only [hinner, readItem, readHead_double h]

/-- The bytes of a bounded item are that item. -/
theorem Item.ofBytes?_encode {item : Item} (h : item.Bounded maxNesting) :
    Item.ofBytes? item.encode = some item := by
  have hread := (readTagged_encode h (readNested maxNesting) []).trans (readNested_encode h [])
  rw [List.append_nil] at hread
  rw [Item.ofBytes?, Item.read, hread]

/-! ## Values -/

namespace Item

theorem ofInt_bounded {depth : Nat} {n : Int} (h : -2 ^ 63 ≤ n ∧ n < 2 ^ 63) :
    (ofInt n).Bounded depth := by
  unfold ofInt
  split
  · exact .negative (by omega)
  · exact .unsigned (by omega)

theorem ofBool_bounded {depth : Nat} (b : Bool) : (ofBool b).Bounded depth := by
  cases b
  exacts [.simple (by decide), .simple (by decide)]

theorem ofTexts_bounded {depth : Nat} {ts : List Text} (hlength : ts.length ≤ maxElements)
    (h : ∀ t ∈ ts, t.length < 2 ^ 64) : (ofTexts ts).Bounded (depth + 1) := by
  refine .array (by simpa using hlength) fun item hitem => ?_
  obtain ⟨t, ht, rfl⟩ := List.mem_map.mp hitem
  exact .text (h t ht)

theorem asInt?_ofInt {n : Int} (h : -2 ^ 63 ≤ n ∧ n < 2 ^ 63) : asInt? (ofInt n) = some n := by
  have hinteger : (ofInt n).integer? = some n := by
    unfold ofInt
    split <;> simp only [integer?, Option.some.injEq] <;> omega
  have hplain : (ofInt n).untagged = some (ofInt n) ∧ (ofInt n).isNull = false := by
    unfold ofInt
    split <;> exact ⟨rfl, rfl⟩
  simp only [asInt?, value?, hplain.1, hplain.2, Option.bind_some, hinteger, Option.filter, h,
    and_self, decide_true, if_true, Bool.false_eq_true, if_false]

theorem asNat?_unsigned {bound n : Nat} (h : n < bound) : asNat? bound (.unsigned n) = some n := by
  simp [asNat?, value?, untagged, isNull, integer?, h]

theorem asBool?_ofBool (b : Bool) : asBool? (ofBool b) = some b := by
  cases b <;> rfl

theorem asText?_ofText {t : Text} (h : t.isValid) : asText? (ofText t) = some t := by
  simp [asText?, ofText, value?, untagged, isNull, h]

theorem asList?_map {α β : Type} {get : Item → Option β} {item : α → Item} {value : α → β}
    {xs : List α} (h : ∀ x ∈ xs, get (item x) = some (value x)) :
    asList? get (.array (xs.map item)) = some (xs.map value) := by
  have hmapM : (xs.map item).mapM get = some (xs.map value) := by
    induction xs with
    | nil => rfl
    | cons x xs ih =>
      rw [List.map_cons, List.mapM_cons, h x (by simp), ih fun y hy => h y (by simp [hy])]
      rfl
  simpa [asList?, value?, untagged, isNull] using hmapM

theorem asList?_ofTexts {ts : List Text} (h : ∀ t ∈ ts, t.isValid) :
    asList? asText? (ofTexts ts) = some ts := by
  simpa [ofTexts] using asList?_map fun t ht => asText?_ofText (h t ht)

end Item
end Bareword.Cbor
