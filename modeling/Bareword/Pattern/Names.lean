import Bareword.Text.Rune

/-! # Named character classes

The names that a pattern may use for classes of characters. Names of Unicode classes are compared
without capitals, blanks, hyphens and underscores.

* `bracketClasses`, `escapeClasses`: the classes of ASCII characters, as in `[:alpha:]` and `\d`.
* `Property`, `property?`: a Unicode class, and the one with a name.
-/

namespace Bareword.Pattern
set_option autoImplicit false

/-- The code points from the first to the second one, both included. -/
abbrev Run := Nat × Nat

/-! ## Classes of ASCII characters -/

def bracketClasses : List (String × List Run) :=
  [("alnum", [(0x30, 0x39), (0x41, 0x5A), (0x61, 0x7A)]), ("alpha", [(0x41, 0x5A), (0x61, 0x7A)]),
    ("ascii", [(0x0, 0x7F)]), ("blank", [(0x9, 0x9), (0x20, 0x20)]),
    ("cntrl", [(0x0, 0x1F), (0x7F, 0x7F)]), ("digit", [(0x30, 0x39)]), ("graph", [(0x21, 0x7E)]),
    ("lower", [(0x61, 0x7A)]), ("print", [(0x20, 0x7E)]),
    ("punct", [(0x21, 0x2F), (0x3A, 0x40), (0x5B, 0x60), (0x7B, 0x7E)]),
    ("space", [(0x9, 0xD), (0x20, 0x20)]), ("upper", [(0x41, 0x5A)]),
    ("word", [(0x30, 0x39), (0x41, 0x5A), (0x5F, 0x5F), (0x61, 0x7A)]),
    ("xdigit", [(0x30, 0x39), (0x41, 0x46), (0x61, 0x66)])]

/-- The classes that are a letter after a backslash; the capital stands for all other characters. -/
def escapeClasses : List (Char × List Run) :=
  [('d', [(0x30, 0x39)]), ('s', [(0x9, 0xA), (0xC, 0xD), (0x20, 0x20)]),
    ('w', [(0x30, 0x39), (0x41, 0x5A), (0x5F, 0x5F), (0x61, 0x7A)])]

/-! ## Unicode classes -/

/-- The small classes, with their runs. -/
def smallProperties : List (String × List Run) :=
  [("Any", [(0x0, 0x10FFFF)]), ("ASCII", [(0x0, 0x7F)]), ("Cc", [(0x0, 0x1F), (0x7F, 0x9F)]),
    ("Co", [(0xE000, 0xF8FF), (0xF0000, 0xFFFFD), (0x100000, 0x10FFFD)]),
    ("Cs", [(0xD800, 0xDFFF)]),
    ("Z", [(0x20, 0x20), (0xA0, 0xA0), (0x1680, 0x1680), (0x2000, 0x200A), (0x2028, 0x2029),
      (0x202F, 0x202F), (0x205F, 0x205F), (0x3000, 0x3000)]),
    ("Zl", [(0x2028, 0x2028)]), ("Zp", [(0x2029, 0x2029)]),
    ("Zs", [(0x20, 0x20), (0xA0, 0xA0), (0x1680, 0x1680), (0x2000, 0x200A), (0x202F, 0x202F),
      (0x205F, 0x205F), (0x3000, 0x3000)])]

/-- The general categories that are not small, with the number of runs of each. -/
def categories : List (String × Nat) :=
  [("C", 741), ("Cf", 21), ("Cn", 735), ("L", 684), ("LC", 144), ("Ll", 664), ("Lm", 79),
    ("Lo", 537), ("Lt", 10), ("Lu", 655), ("M", 327), ("Mc", 192), ("Me", 5), ("Mn", 364),
    ("N", 146), ("Nd", 72), ("Nl", 13), ("No", 72), ("P", 199), ("Pc", 6), ("Pd", 20), ("Pe", 76),
    ("Pf", 10), ("Pi", 11), ("Po", 194), ("Ps", 79), ("S", 242), ("Sc", 21), ("Sk", 31), ("Sm", 67),
    ("So", 193)]

/-- The long names of categories. -/
def longNames : List (String × String) :=
  [("Cased_Letter", "LC"), ("Close_Punctuation", "Pe"), ("Combining_Mark", "M"),
    ("Connector_Punctuation", "Pc"), ("Control", "Cc"), ("Currency_Symbol", "Sc"),
    ("Dash_Punctuation", "Pd"), ("Decimal_Number", "Nd"), ("Enclosing_Mark", "Me"),
    ("Final_Punctuation", "Pf"), ("Format", "Cf"), ("Initial_Punctuation", "Pi"), ("Letter", "L"),
    ("Letter_Number", "Nl"), ("Line_Separator", "Zl"), ("Lowercase_Letter", "Ll"), ("Mark", "M"),
    ("Math_Symbol", "Sm"), ("Modifier_Letter", "Lm"), ("Modifier_Symbol", "Sk"),
    ("Nonspacing_Mark", "Mn"), ("Number", "N"), ("Open_Punctuation", "Ps"), ("Other", "C"),
    ("Other_Letter", "Lo"), ("Other_Number", "No"), ("Other_Punctuation", "Po"),
    ("Other_Symbol", "So"), ("Paragraph_Separator", "Zp"), ("Private_Use", "Co"),
    ("Punctuation", "P"), ("Separator", "Z"), ("Space_Separator", "Zs"), ("Spacing_Mark", "Mc"),
    ("Surrogate", "Cs"), ("Symbol", "S"), ("Titlecase_Letter", "Lt"), ("Unassigned", "Cn"),
    ("Uppercase_Letter", "Lu"), ("cntrl", "Cc"), ("digit", "Nd"), ("punct", "P")]

/-- The scripts, with the number of runs of each. -/
def scripts : List (String × Nat) :=
  [("Adlam", 3), ("Ahom", 3), ("Anatolian_Hieroglyphs", 1), ("Arabic", 56), ("Armenian", 4),
    ("Avestan", 2), ("Balinese", 2), ("Bamum", 2), ("Bassa_Vah", 2), ("Batak", 2), ("Bengali", 14),
    ("Beria_Erfe", 2), ("Bhaiksuki", 4), ("Bopomofo", 3), ("Brahmi", 3), ("Braille", 1),
    ("Buginese", 2), ("Buhid", 1), ("Canadian_Aboriginal", 3), ("Carian", 1),
    ("Caucasian_Albanian", 2), ("Chakma", 2), ("Cham", 4), ("Cherokee", 3), ("Chorasmian", 1),
    ("Common", 176), ("Coptic", 3), ("Cuneiform", 4), ("Cypriot", 6), ("Cypro_Minoan", 1),
    ("Cyrillic", 10), ("Deseret", 1), ("Devanagari", 5), ("Dives_Akuru", 8), ("Dogra", 1),
    ("Duployan", 5), ("Egyptian_Hieroglyphs", 2), ("Elbasan", 1), ("Elymaic", 1), ("Ethiopic", 36),
    ("Garay", 3), ("Georgian", 10), ("Glagolitic", 6), ("Gothic", 1), ("Grantha", 15),
    ("Greek", 36), ("Gujarati", 14), ("Gunjala_Gondi", 6), ("Gurmukhi", 16), ("Gurung_Khema", 1),
    ("Han", 21), ("Hangul", 14), ("Hanifi_Rohingya", 2), ("Hanunoo", 1), ("Hatran", 3),
    ("Hebrew", 9), ("Hiragana", 6), ("Imperial_Aramaic", 2), ("Inherited", 30),
    ("Inscriptional_Pahlavi", 2), ("Inscriptional_Parthian", 2), ("Javanese", 3), ("Kaithi", 2),
    ("Kannada", 13), ("Katakana", 14), ("Kawi", 3), ("Kayah_Li", 2), ("Kharoshthi", 8),
    ("Khitan_Small_Script", 3), ("Khmer", 4), ("Khojki", 2), ("Khudawadi", 2), ("Kirat_Rai", 1),
    ("Lao", 11), ("Latin", 36), ("Lepcha", 3), ("Limbu", 5), ("Linear_A", 3), ("Linear_B", 7),
    ("Lisu", 2), ("Lycian", 1), ("Lydian", 2), ("Mahajani", 1), ("Makasar", 1), ("Malayalam", 7),
    ("Mandaic", 2), ("Manichaean", 2), ("Marchen", 3), ("Masaram_Gondi", 7), ("Medefaidrin", 1),
    ("Meetei_Mayek", 3), ("Mende_Kikakui", 2), ("Meroitic_Cursive", 3), ("Meroitic_Hieroglyphs", 1),
    ("Miao", 3), ("Modi", 2), ("Mongolian", 6), ("Mro", 3), ("Multani", 5), ("Myanmar", 4),
    ("Nabataean", 2), ("Nag_Mundari", 1), ("Nandinagari", 3), ("New_Tai_Lue", 4), ("Newa", 2),
    ("Nko", 2), ("Nushu", 2), ("Nyiakeng_Puachue_Hmong", 4), ("Ogham", 1), ("Ol_Chiki", 1),
    ("Ol_Onal", 2), ("Old_Hungarian", 3), ("Old_Italic", 2), ("Old_North_Arabian", 1),
    ("Old_Permic", 1), ("Old_Persian", 2), ("Old_Sogdian", 1), ("Old_South_Arabian", 1),
    ("Old_Turkic", 1), ("Old_Uyghur", 1), ("Oriya", 14), ("Osage", 2), ("Osmanya", 2),
    ("Pahawh_Hmong", 5), ("Palmyrene", 1), ("Pau_Cin_Hau", 1), ("Phags_Pa", 1), ("Phoenician", 2),
    ("Psalter_Pahlavi", 3), ("Rejang", 2), ("Runic", 2), ("Samaritan", 2), ("Saurashtra", 2),
    ("Sharada", 2), ("Shavian", 1), ("Siddham", 2), ("Sidetic", 1), ("SignWriting", 3),
    ("Sinhala", 13), ("Sogdian", 1), ("Sora_Sompeng", 2), ("Soyombo", 1), ("Sundanese", 2),
    ("Sunuwar", 2), ("Syloti_Nagri", 1), ("Syriac", 4), ("Tagalog", 2), ("Tagbanwa", 3),
    ("Tai_Le", 2), ("Tai_Tham", 5), ("Tai_Viet", 2), ("Tai_Yo", 3), ("Takri", 2), ("Tamil", 18),
    ("Tangsa", 2), ("Tangut", 4), ("Telugu", 13), ("Thaana", 1), ("Thai", 2), ("Tibetan", 7),
    ("Tifinagh", 3), ("Tirhuta", 2), ("Todhri", 1), ("Tolong_Siki", 2), ("Toto", 1),
    ("Tulu_Tigalari", 11), ("Ugaritic", 2), ("Vai", 1), ("Vithkuqi", 8), ("Wancho", 2),
    ("Warang_Citi", 2), ("Yezidi", 3), ("Yi", 2), ("Zanabazar_Square", 1)]

/-- A Unicode class: one that is written out, or one that is known by its name and by the number of
its runs. -/
inductive Property where
  | small (runs : List Run)
  | large (name : String) (count : Nat)
  deriving DecidableEq, Repr, Inhabited

/-- A name without capitals, blanks, hyphens and underscores. -/
def plainName (t : Text) : Text :=
  (t.filter fun b => b != Text.byte '_' && b != Text.byte '-' && b != Text.byte ' ').map fun b =>
    if Text.byte 'A' ≤ b && b ≤ Text.byte 'Z' then b + 32 else b

/-- The Unicode classes by their plain names. -/
def properties : List (Text × Property) :=
  let named := smallProperties.map (fun (name, runs) => (name, Property.small runs)) ++
    (categories ++ scripts).map fun (name, count) => (name, Property.large name count)
  let longNamed := longNames.filterMap fun (long, short) =>
    (named.lookup short).map fun p => (long, p)
  (named ++ longNamed).map fun (name, p) => (plainName (Text.ofString name), p)

/-- The name of the class of all code points that have a character. -/
def assignedName : Text := "assigned"

/-- The class of the code points that have no character. -/
def unassigned : Property := (properties.lookup (Text.ofString "cn")).getD default

/-- The Unicode class with a name, and whether the name stands for all characters outside it. -/
def property? (name : Text) : Option (Property × Bool) :=
  let name := plainName name
  if name == assignedName then some (unassigned, true)
  else (properties.lookup name).map fun p => (p, false)

end Bareword.Pattern
