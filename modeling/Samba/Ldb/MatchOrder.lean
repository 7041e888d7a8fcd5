/-
Ordering filters on numbers and times (lib/ldb/common/ldb_match.c with the comparisons of
lib/ldb/common/attrib_handlers.c). The matcher goes by the sign of a difference that has been cut down to an `int`, and the
difference of times is taken the other way round than that of numbers.
-/
import Samba.Ldb.AttribHandlers
import Samba.Ldb.Match

namespace Samba.Ldb

open CString

/-! ## Differences in an `int` -/

theorem toInt_nonneg (d : Int) : 0 ≤ toInt d ↔ d % 2 ^ 32 < 2 ^ 31 := by
  unfold toInt
  rw [Int.bmod_def]
  split <;> omega

theorem toInt_nonpos (d : Int) : toInt d ≤ 0 ↔ d % 2 ^ 32 = 0 ∨ 2 ^ 31 ≤ d % 2 ^ 32 := by
  unfold toInt
  rw [Int.bmod_def]
  split <;> omega

theorem toInt_sub_toInt (i j : Int) : toInt (toInt i - toInt j) = toInt (i - j) := by
  unfold toInt
  rw [Int.bmod_sub_bmod, Int.sub_bmod_bmod]

/-! ## Ordered syntaxes -/

/-- The syntaxes whose values denote something that has an order. -/
inductive OrderedSyntax
  | integer
  | utcTime
  deriving DecidableEq, Repr

namespace OrderedSyntax

/-- The column `comparison_fn` of the syntax. -/
def comparison : OrderedSyntax → LdbVal → LdbVal → Int
  | .integer => ldbComparisonInteger
  | .utcTime => ldbComparisonUtctime

/-- The number, or the time in seconds, that a value denotes. -/
def denotes : OrderedSyntax → LdbVal → Int
  | .integer, v => (strtoll (cstr v.data)).1
  | .utcTime, v => ldbStringToTime (cstr v.data)

/-- The difference that the comparison of the syntax takes. -/
def difference : OrderedSyntax → Int → Int → Int
  | .integer, i, j => i - j
  | .utcTime, i, j => j - i

theorem comparison_eq (s : OrderedSyntax) (v₁ v₂ : LdbVal) :
    s.comparison v₁ v₂ = toInt (s.difference (s.denotes v₁) (s.denotes v₂)) := by
  cases s with
  | integer => rfl
  | utcTime => exact toInt_sub_toInt _ _

end OrderedSyntax

/-- The order that a filter asks for. -/
def InOrder : ComparisonOp → Int → Int → Prop
  | .greater, i, j => j ≤ i
  | .less, i, j => i ≤ j
  | .approx, _, _ => False

/-- The order that the last 32 bits of a difference show. -/
def Appears : ComparisonOp → Int → Prop
  | .greater, d => d % 2 ^ 32 < 2 ^ 31
  | .less, d => d % 2 ^ 32 = 0 ∨ 2 ^ 31 ≤ d % 2 ^ 32
  | .approx, _ => False

/-- The values of an attribute of an entry. -/
def valuesOf (msg : LdbMessage) (attr : Text) : List LdbVal := (ldbMsgFindElement msg attr).elim [] (·.values)

instance (op : ComparisonOp) (i j : Int) : Decidable (InOrder op i j) :=
  match op with
  | .greater => inferInstanceAs (Decidable (j ≤ i))
  | .less => inferInstanceAs (Decidable (i ≤ j))
  | .approx => inferInstanceAs (Decidable False)

instance (op : ComparisonOp) (d : Int) : Decidable (Appears op d) :=
  match op with
  | .greater => inferInstanceAs (Decidable (d % 2 ^ 32 < 2 ^ 31))
  | .less => inferInstanceAs (Decidable (d % 2 ^ 32 = 0 ∨ 2 ^ 31 ≤ d % 2 ^ 32))
  | .approx => inferInstanceAs (Decidable False)

/-- The attribute has the comparison of a syntax. -/
def HasSyntax (schema : Syntaxes) (msg : LdbMessage) (attr : Text) (s : OrderedSyntax) : Prop :=
  ∀ el, ldbMsgFindElement msg attr = some el → schema.comparison el.name = s.comparison

section Order

variable {schema : Syntaxes} {msg : LdbMessage} {attr : Text} {s : OrderedSyntax}

/-- A value is taken where its difference appears to be in order. -/
theorem taken_iff (op : ComparisonOp) (hop : op ≠ .approx) (v value : LdbVal) :
    (s.comparison v value = 0 ∨ (s.comparison v value > 0 ∧ op = .greater) ∨ (s.comparison v value < 0 ∧ op = .less)) ↔
      Appears op (s.difference (s.denotes v) (s.denotes value)) := by
  rw [s.comparison_eq]
  generalize s.difference (s.denotes v) (s.denotes value) = d
  cases op with
  | greater =>
    have h := toInt_nonneg d
    simp only [Appears, reduceCtorEq, and_false, or_false, and_true]
    omega
  | less =>
    have h := toInt_nonpos d
    simp only [Appears, reduceCtorEq, and_false, false_or, and_true]
    omega
  | approx => exact absurd rfl hop

/-- An ordering filter matches where some value appears to be in order. -/
theorem ldbMatchMessage_comparison (hattr : HasSyntax schema msg attr s) {op : ComparisonOp} (hop : op ≠ .approx)
    (value : LdbVal) :
    ldbMatchMessage schema msg (.comparison op attr value) = some 1 ↔
      ∃ v ∈ valuesOf msg attr, Appears op (s.difference (s.denotes v) (s.denotes value)) := by
  rw [ldbMatchMessage, matchLeaf, ldbMatchComparison, if_neg hop, valuesOf]
  cases hel : ldbMsgFindElement msg attr with
  | none => simp
  | some el =>
    simp only [hattr el hel, Option.some.injEq, Option.elim_some]
    have hany : ∀ b : Bool, (if b = true then (1 : Int) else 0) = 1 ↔ b = true := by decide
    rw [hany, List.any_eq_true]
    refine exists_congr fun v => and_congr_right fun _ => ?_
    rw [← taken_iff op hop]
    simp only [Bool.or_eq_true, Bool.and_eq_true, decide_eq_true_eq, or_assoc]

/-- An ordering filter respects the order of the values where, as soon as a value is in order, some value appears to be in
order, and as soon as a value appears to be in order, some value is. -/
theorem ldbMatchMessage_ordered_iff (schema : Syntaxes) (msg : LdbMessage) (attr : Text) (s : OrderedSyntax)
    (hattr : HasSyntax schema msg attr s) (op : ComparisonOp) (hop : op ≠ .approx) (value : LdbVal) :
    (ldbMatchMessage schema msg (.comparison op attr value) = some 1 ↔
        ∃ v ∈ valuesOf msg attr, InOrder op (s.denotes v) (s.denotes value)) ↔
      (∀ v ∈ valuesOf msg attr, InOrder op (s.denotes v) (s.denotes value) →
          ∃ w ∈ valuesOf msg attr, Appears op (s.difference (s.denotes w) (s.denotes value))) ∧
        ∀ v ∈ valuesOf msg attr, Appears op (s.difference (s.denotes v) (s.denotes value)) →
          ∃ w ∈ valuesOf msg attr, InOrder op (s.denotes w) (s.denotes value) := by
  rw [ldbMatchMessage_comparison hattr hop]
  constructor
  · intro h
    exact ⟨fun v hv hin => h.2 ⟨v, hv, hin⟩, fun v hv hap => h.1 ⟨v, hv, hap⟩⟩
  · rintro ⟨hin, hap⟩
    exact ⟨fun ⟨v, hv, h⟩ => hap v hv h, fun ⟨v, hv, h⟩ => hin v hv h⟩

/-! ## Close values -/

end Order

/-! ## Values that are out of order -/

/-- An attribute with one value. -/
def entryWith (attr : Text) (value : LdbVal) : LdbMessage := ⟨none, [⟨attr, [value]⟩]⟩

/-- A schema in which every attribute has one syntax. -/
def plainSchema (s : OrderedSyntax) : Syntaxes := ⟨fun _ v => some v, fun _ => s.comparison⟩

/-- An entry of 2007 is not found by the filter for 2006 and later, and a number of 33 bits is found by `<=0`. -/
theorem ldbMatch_out_of_order :
    let created : Text := "whenCreated".toList.map chr
    let usn : Text := "uSNChanged".toList.map chr
    let later : LdbVal := .ofText ("20070101000000.0Z".toList.map chr)
    let earlier : LdbVal := .ofText ("20060101000000.0Z".toList.map chr)
    let wide : LdbVal := .ofText ("4294967296".toList.map chr)
    let zero : LdbVal := .ofText ("0".toList.map chr)
    (¬ (ldbMatchMessage (plainSchema .utcTime) (entryWith created later) (.comparison .greater created earlier) = some 1 ↔
      ∃ v ∈ valuesOf (entryWith created later) created,
        InOrder .greater (OrderedSyntax.utcTime.denotes v) (OrderedSyntax.utcTime.denotes earlier))) ∧
    ¬ (ldbMatchMessage (plainSchema .integer) (entryWith usn wide) (.comparison .less usn zero) = some 1 ↔
      ∃ v ∈ valuesOf (entryWith usn wide) usn,
        InOrder .less (OrderedSyntax.integer.denotes v) (OrderedSyntax.integer.denotes zero)) := by
  decide

/-- Of the numbers 5 and 12 one is at least 7, and of the years 2005 and 2008 one is after 2006. -/
theorem ldbMatchMessage_ordered_sample :
    let usn : Text := "uSNChanged".toList.map chr
    let created : Text := "whenCreated".toList.map chr
    let number (digits : String) : LdbVal := .ofText (digits.toList.map chr)
    let newYear (year : String) : LdbVal := .ofText ((year ++ "0101000000.0Z").toList.map chr)
    ldbMatchMessage (plainSchema .integer) ⟨none, [⟨usn, [number "5", number "12"]⟩]⟩
        (.comparison .greater usn (number "7")) = some 1 ∧
      ldbMatchMessage (plainSchema .utcTime) ⟨none, [⟨created, [newYear "2005", newYear "2008"]⟩]⟩
        (.comparison .greater created (newYear "2006")) = some 1 := by
  intro usn created number newYear
  constructor
  · refine (ldbMatchMessage_ordered_iff (plainSchema .integer) ⟨none, [⟨usn, [number "5", number "12"]⟩]⟩ usn .integer
      (fun _ _ => rfl) .greater (by decide) (number "7")).2 ⟨?_, ?_⟩ |>.2 ?_
    · exact fun _ _ _ => ⟨number "12", by decide, by decide⟩
    · exact fun _ _ _ => ⟨number "12", by decide, by decide⟩
    · exact ⟨number "12", by decide, by decide⟩
  · refine (ldbMatchMessage_ordered_iff (plainSchema .utcTime) ⟨none, [⟨created, [newYear "2005", newYear "2008"]⟩]⟩ created
      .utcTime (fun _ _ => rfl) .greater (by decide) (newYear "2006")).2 ⟨?_, ?_⟩ |>.2 ?_
    -- it is found for the earlier of its two values, whose difference appears to be in order
    · exact fun _ _ _ => ⟨newYear "2005", by decide, by decide⟩
    · exact fun _ _ _ => ⟨newYear "2008", by decide, by decide⟩
    · exact ⟨newYear "2008", by decide, by decide⟩

end Samba.Ldb
