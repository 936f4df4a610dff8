import Mathlib.Data.List.Basic
import Mathlib.Data.Rat.Defs
import Mathlib.Tactic.Common

/-! Python's strings and the values of its `json` module, with `json.dumps` as the tools
call it: `separators=(",",":")` and `ensure_ascii=False`. What a file makes of a string, and
what the interpreter makes of a text that it cannot decode, are here as well. -/
namespace PredictionMarket.Tools

/-- An element of a `str`; surrogates are allowed. -/
structure CodePoint where
  val : Nat
  inRange : val < 0x110000
  deriving DecidableEq

abbrev Text := List CodePoint

namespace CodePoint

def ofChar (c : Char) : CodePoint where
  val := c.toNat
  inRange := by
    have := c.valid
    unfold UInt32.isValidChar Nat.isValidChar at this
    unfold Char.toNat
    omega

def isSurrogate (c : CodePoint) : Bool := 0xD800 ≤ c.val && c.val ≤ 0xDFFF

/-- A code point in utf-8. -/
def utf8 (c : CodePoint) : List UInt8 :=
  if c.val < 0x80 then [.ofNat c.val]
  else if c.val < 0x800 then [.ofNat (0xC0 + c.val / 64),.ofNat (0x80 + c.val % 64)]
  else if c.val < 0x10000 then
    [.ofNat (0xE0 + c.val / 4096),.ofNat (0x80 + c.val / 64 % 64),.ofNat (0x80 + c.val % 64)]
  else [.ofNat (0xF0 + c.val / 262144),.ofNat (0x80 + c.val / 4096 % 64),.ofNat (0x80 + c.val / 64 % 64),
    .ofNat (0x80 + c.val % 64)]

/-- The printable part of ASCII. -/
def Printable (c : CodePoint) : Prop := 0x20 ≤ c.val ∧ c.val < 0x7F

instance (c : CodePoint) : Decidable c.Printable := inferInstanceAs (Decidable (_ ∧ _))

end CodePoint

/-- A literal of the source. -/
def text (literal : String) : Text := literal.toList.map CodePoint.ofChar

/-- The bytes of a text without surrogates. -/
def utf8 (s : Text) : List UInt8 := s.flatMap CodePoint.utf8

/-- A code point takes one to four bytes. -/
theorem utf8_length (s : Text) : s.length ≤ (utf8 s).length ∧ (utf8 s).length ≤ 4 * s.length := by
  induction s with
  | nil => exact ⟨Nat.le_refl 0,Nat.le_refl 0⟩
  | cons c s ih =>
    have hone : 1 ≤ c.utf8.length ∧ c.utf8.length ≤ 4 := by
      unfold CodePoint.utf8
      split_ifs <;> simp
    have hcons : (utf8 (c :: s)).length = c.utf8.length + (utf8 s).length := by
      rw [utf8, List.flatMap_cons, List.length_append, utf8]
    rw [hcons, List.length_cons]
    omega

/-- A `float`; a finite one is known by its value and its `repr`. -/
inductive PyFloat where
  | finite (x : ℚ) (repr : Text) (printable : ∀ c ∈ repr, c.Printable)
  | infinity (negative : Bool)
  | nan

/-- A `float` in a dump. -/
def PyFloat.dump : PyFloat → Text
  | finite _ repr _ => repr
  | infinity negative => if negative then text "-Infinity" else text "Infinity"
  | nan => text "NaN"

/-- The values that `json.loads` builds. The entries of a dictionary keep their order. -/
inductive Value where
  | none
  | bool (b : Bool)
  | int (n : Int)
  | float (x : PyFloat)
  | str (s : Text)
  | list (elements : List Value)
  | dict (entries : List (Text × Value))

/-- What `json.loads` comes to. It raises something else than a `JSONDecodeError` on an integer of
too many digits and on too deep a nesting. -/
inductive Loaded where
  | value (v : Value)
  | decodeError
  | raised

/-- What the tools leave to the interpreter. -/
structure Python where
  /-- `json.loads` -/
  loads : Text → Loaded
  /-- The deepest nesting that `json.dumps` gets through without a `RecursionError`. -/
  deepest : Nat
  deepest_pos : 0 < deepest
  /-- `int` of a string; no result stands for a `ValueError`. -/
  intOfStr : Text → Option Int

namespace Dict

/-- `d.get(key)` -/
def get (entries : List (Text × Value)) (key : Text) : Option Value :=
  (entries.find? fun entry => entry.1 = key).map Prod.snd

/-- `d[key] = value`: an entry that is there keeps its place. -/
def set (entries : List (Text × Value)) (key : Text) (value : Value) : List (Text × Value) :=
  if entries.any fun entry => entry.1 = key then
    entries.map fun entry => if entry.1 = key then (key,value) else entry
  else entries ++ [(key,value)]

/-- A key that has been set has its value. -/
theorem get_set_self (entries : List (Text × Value)) (key : Text) (value : Value) :
    get (set entries key value) key = some value := by
  unfold get set
  split_ifs with h
  · induction entries with
    | nil => cases h
    | cons entry entries ih =>
      by_cases he : entry.1 = key
      · simp [he]
      · simp only [List.any_cons, he, decide_false, Bool.false_or] at h
        simpa [he] using ih h
  · have hnone : entries.find? (fun entry => entry.1 = key) = none := by
      rw [List.find?_eq_none]
      intro entry hm hk
      exact h (List.any_eq_true.mpr ⟨entry,hm,hk⟩)
    simp [List.find?_append, hnone]

/-- A key that has not been set keeps its value. -/
theorem get_set_ne (entries : List (Text × Value)) {key other : Text} (value : Value) (h : other ≠ key) :
    get (set entries key value) other = get entries other := by
  have hkey (entry : Text × Value) : decide ((if entry.1 = key then (key,value) else entry).1 = other) =
      decide (entry.1 = other) := by
    split_ifs with he
    · rw [he]
    · rfl
  unfold get set
  split_ifs with hin
  · rw [List.find?_map, Function.comp_def]
    simp only [hkey]
    cases hf : entries.find? fun entry => entry.1 = other with
    | none => rfl
    | some entry =>
      have hfound := List.find?_some hf
      have he : entry.1 = other := of_decide_eq_true hfound
      simp [he, h]
  · rw [List.find?_append]
    simp [h.symm]

/-- After an assignment: the assigned entry, and the entries under other keys. -/
theorem mem_set {entries : List (Text × Value)} {key : Text} {value : Value} {entry : Text × Value} :
    entry ∈ set entries key value ↔ entry = (key,value) ∨ entry ∈ entries ∧ entry.1 ≠ key := by
  unfold set
  split_ifs with h
  · obtain ⟨old,hold,hk⟩ := List.any_eq_true.mp h
    rw [decide_eq_true_iff] at hk
    rw [List.mem_map]
    constructor
    · rintro ⟨other,ho,he⟩
      split_ifs at he with hok
      · exact .inl he.symm
      · exact .inr ⟨he ▸ ho,he ▸ hok⟩
    · rintro (rfl | ⟨ho,hok⟩)
      · exact ⟨old,hold,if_pos hk⟩
      · exact ⟨entry,ho,if_neg hok⟩
  · rw [List.mem_append, List.mem_singleton, or_comm]
    refine or_congr_right ⟨fun hm => ⟨hm,fun hk => h ?_⟩,And.left⟩
    exact List.any_eq_true.mpr ⟨entry,hm,decide_eq_true hk⟩

end Dict

/-- An interpreter that has been shown some texts. -/
def Python.knowing (known : List (Text × Value)) : Python where
  loads s := match Dict.get known s with
    | some v => .value v
    | none => .decodeError
  deepest := 900
  deepest_pos := by decide
  intOfStr _ := none

def hexDigit (n : Nat) : CodePoint := .ofChar (Nat.digitChar n)

/-- `json`'s escape of one code point: controls, quotes and backslashes only. -/
def escape (c : CodePoint) : Text :=
  if c.val = 0x5C then text "\\\\"
  else if c.val = 0x22 then text "\\\""
  else if c.val = 0x08 then text "\\b"
  else if c.val = 0x0C then text "\\f"
  else if c.val = 0x0A then text "\\n"
  else if c.val = 0x0D then text "\\r"
  else if c.val = 0x09 then text "\\t"
  else if c.val < 0x20 then text "\\u00" ++ [hexDigit (c.val / 16),hexDigit (c.val % 16)]
  else [c]

def quoted (s : Text) : Text := text "\"" ++ s.flatMap escape ++ text "\""

def decimal (n : Nat) : Text := (Nat.toDigits 10 n).map .ofChar

def intRepr : Int → Text
  | .ofNat n => decimal n
  | .negSucc n => text "-" ++ decimal (n + 1)

mutual

def dumps : Value → Text
  | .none => text "null"
  | .bool b => if b then text "true" else text "false"
  | .int n => intRepr n
  | .float x => x.dump
  | .str s => quoted s
  | .list elements => text "[" ++ dumpsElements elements ++ text "]"
  | .dict entries => text "\x7b" ++ dumpsEntries entries ++ text "\x7d"

def dumpsElements : List Value → Text
  | [] => []
  | [v] => dumps v
  | v :: w :: rest => dumps v ++ text "," ++ dumpsElements (w :: rest)

def dumpsEntries : List (Text × Value) → Text
  | [] => []
  | [entry] => dumpsEntry entry
  | entry :: other :: rest => dumpsEntry entry ++ text "," ++ dumpsEntries (other :: rest)

def dumpsEntry : Text × Value → Text
  | (key,v) => quoted key ++ text ":" ++ dumps v

end

mutual

/-- How deep lists and dictionaries are nested. -/
def Value.depth : Value → Nat
  | .list elements => elementsDepth elements + 1
  | .dict entries => entriesDepth entries + 1
  | _ => 0

def elementsDepth : List Value → Nat
  | [] => 0
  | v :: rest => max v.depth (elementsDepth rest)

def entriesDepth : List (Text × Value) → Nat
  | [] => 0
  | entry :: rest => max (entryDepth entry) (entriesDepth rest)

def entryDepth : Text × Value → Nat
  | (_,v) => v.depth

end

/-- `_compact_json`; there is no result if it raises. -/
def Python.compactJson (py : Python) (obj : Value) : Option Text :=
  if obj.depth ≤ py.deepest then some (dumps obj) else none

/-- The entries are no deeper than the deepest of their values. -/
theorem entriesDepth_le {entries : List (Text × Value)} {n : Nat} :
    entriesDepth entries ≤ n ↔ ∀ entry ∈ entries, entry.2.depth ≤ n := by
  induction entries with
  | nil => simp [entriesDepth]
  | cons entry entries ih =>
    obtain ⟨key,v⟩ := entry
    rw [entriesDepth, entryDepth, Nat.max_le, ih, List.forall_mem_cons]

mutual

/-- Every string of a value, the keys of its dictionaries included. -/
def Value.strings : Value → List Text
  | .str s => [s]
  | .list elements => elementStrings elements
  | .dict entries => entryStrings entries
  | _ => []

def elementStrings : List Value → List Text
  | [] => []
  | v :: rest => v.strings ++ elementStrings rest

def entryStrings : List (Text × Value) → List Text
  | [] => []
  | entry :: rest => memberStrings entry ++ entryStrings rest

def memberStrings : Text × Value → List Text
  | (key,v) => key :: v.strings

end

/-- The strings of an object are those of its members. -/
theorem mem_entryStrings {entries : List (Text × Value)} {s : Text} :
    s ∈ entryStrings entries ↔ ∃ entry ∈ entries, s ∈ memberStrings entry := by
  induction entries with
  | nil => simp [entryStrings]
  | cons entry entries ih => simp [entryStrings, ih]

/-- A text made of printable ASCII and of what these strings hold above the controls. -/
def MadeOf (strings : List Text) (s : Text) : Prop :=
  ∀ c ∈ s, c.Printable ∨ 0x20 ≤ c.val ∧ ∃ t ∈ strings, c ∈ t

namespace MadeOf
variable {strings more : List Text} {s t : Text}

/-- Texts made of some strings can be joined. -/
theorem append (hs : MadeOf strings s) (ht : MadeOf strings t) : MadeOf strings (s ++ t) := by
  intro c hc
  exact (List.mem_append.mp hc).elim (hs c) (ht c)

/-- A text made of some strings is made of more of them. -/
theorem mono (h : MadeOf strings s) (hsub : strings ⊆ more) : MadeOf more s := by
  intro c hc
  refine (h c hc).imp_right ?_
  rintro ⟨hge,t,ht,hct⟩
  exact ⟨hge,t,hsub ht,hct⟩

private theorem printable (h : ∀ c ∈ s, c.Printable) : MadeOf strings s := fun c hc => .inl (h c hc)

end MadeOf

private theorem hexDigit_printable (n : Nat) (h : n < 16) : (hexDigit n).Printable := by
  have hall : ∀ n < 16, (hexDigit n).Printable := by decide
  exact hall n h

private theorem escape_cases (c : CodePoint) :
    (∀ d ∈ escape c, d.Printable) ∨ escape c = [c] ∧ 0x20 ≤ c.val := by
  unfold escape
  iterate 7
    split
    · exact .inl (by decide)
  split
  · left
    intro d hd
    rcases List.mem_append.mp hd with hd | hd
    · have hall : ∀ d ∈ text "\\u00", d.Printable := by decide
      exact hall d hd
    · simp only [List.mem_cons, List.not_mem_nil, or_false] at hd
      rcases hd with rfl | rfl
      · exact hexDigit_printable _ (by omega)
      · exact hexDigit_printable _ (by omega)
  · exact .inr ⟨rfl,by omega⟩

private theorem quoted_madeOf (s : Text) : MadeOf [s] (quoted s) := by
  have hquote : ∀ c ∈ text "\"", c.Printable := by decide
  refine .append (.append (.printable hquote) ?_) (.printable hquote)
  intro d hd
  obtain ⟨c,hc,hd⟩ := List.mem_flatMap.mp hd
  rcases escape_cases c with hp | ⟨he,hge⟩
  · exact .inl (hp d hd)
  · rw [he, List.mem_singleton] at hd
    subst hd
    exact .inr ⟨hge,s,List.mem_singleton_self s,hc⟩

private theorem mem_quoted {s : Text} {c : CodePoint} (hc : c ∈ s) (h : 0x7F ≤ c.val) : c ∈ quoted s := by
  have he : escape c = [c] := by
    unfold escape
    iterate 8 rw [if_neg (by omega)]
  refine List.mem_append_left _ (List.mem_append_right _ (List.mem_flatMap.mpr ⟨c,hc,?_⟩))
  rw [he]
  exact List.mem_singleton_self c

private theorem decimal_printable (n : Nat) : ∀ c ∈ decimal n, c.Printable := by
  intro c hc
  obtain ⟨d,hd,rfl⟩ := List.mem_map.mp hc
  have hdigit := Nat.isDigit_of_mem_toDigits (by decide) (by decide) hd
  rw [Char.isDigit, Bool.and_eq_true, decide_eq_true_iff, decide_eq_true_iff] at hdigit
  have h1 : 48 ≤ d.toNat := hdigit.1
  have h2 : d.toNat ≤ 57 := hdigit.2
  refine ⟨?_,?_⟩
  · change 0x20 ≤ d.toNat
    omega
  · change d.toNat < 0x7F
    omega

private theorem intRepr_printable (n : Int) : ∀ c ∈ intRepr n, c.Printable := by
  cases n with
  | ofNat n => exact decimal_printable n
  | negSucc n =>
    have hminus : ∀ c ∈ text "-", c.Printable := by decide
    intro c hc
    exact (List.mem_append.mp hc).elim (hminus c) (decimal_printable _ c)

private theorem PyFloat.dump_printable (x : PyFloat) : ∀ c ∈ x.dump, c.Printable := by
  cases x with
  | finite x repr printable => exact printable
  | infinity negative => cases negative <;> decide
  | nan => decide

section Punctuation
variable {strings : List Text}

private theorem madeOf_bracket : MadeOf strings (text "[") := .printable (by decide)
private theorem madeOf_bracketEnd : MadeOf strings (text "]") := .printable (by decide)
private theorem madeOf_brace : MadeOf strings (text "\x7b") := .printable (by decide)
private theorem madeOf_braceEnd : MadeOf strings (text "\x7d") := .printable (by decide)
private theorem madeOf_comma : MadeOf strings (text ",") := .printable (by decide)
private theorem madeOf_colon : MadeOf strings (text ":") := .printable (by decide)

end Punctuation

mutual

/-- A dump is made of printable ASCII and of the value's strings. -/
theorem dumps_madeOf : (v : Value) → MadeOf v.strings (dumps v)
  | .none => .printable (by decide)
  | .bool true => .printable (by decide)
  | .bool false => .printable (by decide)
  | .int n => .printable (intRepr_printable n)
  | .float x => .printable x.dump_printable
  | .str s => quoted_madeOf s
  | .list elements => .append (.append madeOf_bracket (dumpsElements_madeOf elements)) madeOf_bracketEnd
  | .dict entries => .append (.append madeOf_brace (dumpsEntries_madeOf entries)) madeOf_braceEnd

private theorem dumpsElements_madeOf :
    (elements : List Value) → MadeOf (elementStrings elements) (dumpsElements elements)
  | [] => nofun
  | [v] => (dumps_madeOf v).mono (List.subset_append_left _ _)
  | v :: w :: rest => .append (.append ((dumps_madeOf v).mono (List.subset_append_left _ _)) madeOf_comma)
      ((dumpsElements_madeOf (w :: rest)).mono (List.subset_append_right _ _))

private theorem dumpsEntries_madeOf :
    (entries : List (Text × Value)) → MadeOf (entryStrings entries) (dumpsEntries entries)
  | [] => nofun
  | [entry] => (dumpsEntry_madeOf entry).mono (List.subset_append_left _ _)
  | entry :: other :: rest =>
    .append (.append ((dumpsEntry_madeOf entry).mono (List.subset_append_left _ _)) madeOf_comma)
      ((dumpsEntries_madeOf (other :: rest)).mono (List.subset_append_right _ _))

private theorem dumpsEntry_madeOf : (entry : Text × Value) → MadeOf (memberStrings entry) (dumpsEntry entry)
  | (key,v) => .append (.append ((quoted_madeOf key).mono (List.cons_subset_cons _ (List.nil_subset _)))
      madeOf_colon) ((dumps_madeOf v).mono (List.subset_cons_self _ _))

end

mutual

/-- Nothing above ASCII is escaped away. -/
theorem mem_dumps {s : Text} {c : CodePoint} (hc : c ∈ s) (h : 0x7F ≤ c.val) :
    (v : Value) → s ∈ v.strings → c ∈ dumps v
  | .str t, hs => by
    rw [List.mem_singleton.mp hs] at hc
    exact mem_quoted hc h
  | .list elements, hs =>
    List.mem_append_left _ (List.mem_append_right _ (mem_dumpsElements hc h elements hs))
  | .dict entries, hs =>
    List.mem_append_left _ (List.mem_append_right _ (mem_dumpsEntries hc h entries hs))

private theorem mem_dumpsElements {s : Text} {c : CodePoint} (hc : c ∈ s) (h : 0x7F ≤ c.val) :
    (elements : List Value) → s ∈ elementStrings elements → c ∈ dumpsElements elements
  | [v], hs => mem_dumps hc h v (by rwa [elementStrings, elementStrings, List.append_nil] at hs)
  | v :: w :: rest, hs => (List.mem_append.mp hs).elim
      (fun hv => List.mem_append_left _ (List.mem_append_left _ (mem_dumps hc h v hv)))
      (fun hr => List.mem_append_right _ (mem_dumpsElements hc h (w :: rest) hr))

private theorem mem_dumpsEntries {s : Text} {c : CodePoint} (hc : c ∈ s) (h : 0x7F ≤ c.val) :
    (entries : List (Text × Value)) → s ∈ entryStrings entries → c ∈ dumpsEntries entries
  | [entry], hs => mem_dumpsEntry hc h entry (by rwa [entryStrings, entryStrings, List.append_nil] at hs)
  | entry :: other :: rest, hs => (List.mem_append.mp hs).elim
      (fun he => List.mem_append_left _ (List.mem_append_left _ (mem_dumpsEntry hc h entry he)))
      (fun hr => List.mem_append_right _ (mem_dumpsEntries hc h (other :: rest) hr))

private theorem mem_dumpsEntry {s : Text} {c : CodePoint} (hc : c ∈ s) (h : 0x7F ≤ c.val) :
    (entry : Text × Value) → s ∈ memberStrings entry → c ∈ dumpsEntry entry
  | (key,v), hs => by
    rcases List.mem_cons.mp hs with rfl | hv
    · exact List.mem_append_left _ (List.mem_append_left _ (mem_quoted hc h))
    · exact List.mem_append_right _ (mem_dumps hc h v hv)

end

/-- A dump is one line. -/
theorem dumps_oneLine (v : Value) : ∀ c ∈ dumps v, 0x20 ≤ c.val := by
  intro c hc
  exact (dumps_madeOf v c hc).elim And.left And.left

/-- A dump has a surrogate exactly if some string of the value has one. -/
theorem dumps_surrogate_iff (v : Value) : (∃ c ∈ dumps v, c.isSurrogate = true) ↔
    ∃ s ∈ v.strings, ∃ c ∈ s, c.isSurrogate = true := by
  constructor
  · rintro ⟨c,hc,hsur⟩
    rcases dumps_madeOf v c hc with hp | ⟨_,s,hs,hcs⟩
    · rw [CodePoint.isSurrogate, Bool.and_eq_true, decide_eq_true_iff] at hsur
      have := hp.2
      omega
    · exact ⟨s,hs,c,hcs,hsur⟩
  · rintro ⟨s,hs,c,hcs,hsur⟩
    have hge : 0x7F ≤ c.val := by
      have := hsur
      rw [CodePoint.isSurrogate, Bool.and_eq_true, decide_eq_true_iff] at this
      omega
    exact ⟨c,mem_dumps hcs hge v hs,hsur⟩

example : dumps (.dict [(text "a",.list [.int (-12),.bool true,.str (text "\n\"")])]) =
    text "\x7b\"a\":[-12,true,\"\\n\\\"\"]\x7d" := by decide

end PredictionMarket.Tools
