import Mathlib.Data.String.Basic
import PolishPseudocode.Expr.Reduction
import PolishPseudocode.Value.Operation

/-! The order of texts. The six comparisons of two texts all speak of one total order, that of the dictionary by code
points. It is also the order of the bytes of the texts in UTF-8: of two characters the greater one has the greater
first byte, or as many bytes as the other one and the greater byte where they first differ. -/

namespace PolishPseudocode

/-! ### Bytes -/

/-- A list comes before another one by an element that both have, so that it does whatever follows them. -/
inductive ComesBefore {α : Type} [LT α] : List α → List α → Prop
  | head {a b : α} (l m : List α) (h : a < b) : ComesBefore (a :: l) (b :: m)
  | tail (a : α) {l m : List α} (h : ComesBefore l m) : ComesBefore (a :: l) (a :: m)

theorem ComesBefore.append_lt {α : Type} [LT α] {l m : List α} (h : ComesBefore l m) (l' m' : List α) :
    l ++ l' < m ++ m' := by
  induction h with
  | head l m h => exact .rel h
  | tail a _ ih => exact .cons ih

def utf8Bytes (s : String) : List UInt8 :=
  s.toUTF8.data.toList

def codePoints (s : String) : List Nat :=
  s.toList.map Char.toNat

theorem utf8Bytes_eq (s : String) : utf8Bytes s = s.toList.flatMap String.utf8EncodeChar := by
  rw [utf8Bytes, String.toUTF8_eq_toByteArray]
  conv_lhs => rw [← String.ofList_toList (s := s)]
  exact List.toList_data_toByteArray

/-- Two bytes in order, and behind them, should they be equal, the next ones. -/
theorem comesBefore_bytes {a b : Nat} {l m : List UInt8} (ha : a < 256) (hb : b < 256) (hle : a ≤ b)
    (h : a = b → ComesBefore l m) : ComesBefore (UInt8.ofNat a :: l) (UInt8.ofNat b :: m) := by
  rcases hle.eq_or_lt with rfl | hlt
  · exact .tail _ (h rfl)
  · refine .head l m ?_
    rw [UInt8.lt_iff_toNat_lt, UInt8.toNat_ofNat', UInt8.toNat_ofNat', Nat.mod_eq_of_lt ha, Nat.mod_eq_of_lt hb]
    exact hlt

theorem toNat_lt_of_char (c : Char) : c.val.toNat < 0x110000 := by
  rcases c.valid with hlow | ⟨-, hhigh⟩
  · exact Nat.lt_trans hlow (by decide)
  · exact hhigh

/-- A class of the encoding starts with greater bytes than the ones before it, and within a class the bytes are the
digits of the code point, from the highest on. So each byte is in order if the ones before are equal, and not all of
them are. -/
theorem comesBefore_utf8EncodeChar {c d : Char} (h : c < d) :
    ComesBefore (String.utf8EncodeChar c) (String.utf8EncodeChar d) := by
  have hlt : c.val.toNat < d.val.toNat := h
  have hd := toNat_lt_of_char d
  unfold String.utf8EncodeChar
  generalize c.val.toNat = v at hlt
  generalize d.val.toNat = w at hlt hd
  dsimp only
  split_ifs <;> try omega
  all_goals
    repeat refine comesBefore_bytes (by omega) (by omega) (by omega) fun _ => ?_
    omega

theorem flatMap_utf8EncodeChar_lt {l m : List Char} (h : l < m) :
    l.flatMap String.utf8EncodeChar < m.flatMap String.utf8EncodeChar := by
  induction h with
  | nil =>
      rename_i d m
      rw [List.flatMap_nil, List.flatMap_cons]
      obtain ⟨b, bytes, hbytes⟩ := List.exists_cons_of_ne_nil (String.utf8EncodeChar_ne_nil (c := d))
      rw [hbytes]
      exact .nil
  | rel h =>
      rw [List.flatMap_cons, List.flatMap_cons]
      exact (comesBefore_utf8EncodeChar h).append_lt _ _
  | cons _ ih =>
      rw [List.flatMap_cons, List.flatMap_cons]
      exact List.append_left_lt ih

/-- The order of the bytes is that of the texts. -/
theorem utf8Bytes_lt_iff {s t : String} : utf8Bytes s < utf8Bytes t ↔ s < t := by
  have hmono {s t : String} (h : s < t) : utf8Bytes s < utf8Bytes t := by
    rw [utf8Bytes_eq, utf8Bytes_eq]
    exact flatMap_utf8EncodeChar_lt (String.lt_iff_toList_lt.1 h)
  refine ⟨fun h => ?_, hmono⟩
  rcases lt_trichotomy s t with hlt | rfl | hgt
  · exact hlt
  · exact absurd h (List.lt_irrefl _)
  · exact absurd (hmono hgt) (List.lt_asymm h)

theorem codePoints_lt_iff {s t : String} : codePoints s < codePoints t ↔ s < t := by
  have hmono {s t : String} (h : s < t) : codePoints s < codePoints t :=
    List.map_lt (fun _ _ hlt => hlt) (String.lt_iff_toList_lt.1 h)
  refine ⟨fun h => ?_, hmono⟩
  rcases lt_trichotomy s t with hlt | rfl | hgt
  · exact hlt
  · exact absurd h (lt_irrefl _)
  · exact absurd (hmono hgt) h.asymm

/-! ### Comparisons -/

namespace BinaryOp

def HoldsFor (op : BinaryOp) (s t : String) : Prop :=
  op.apply (.text s) (.text t) = .ok (.bool true)

variable {s t : String}

theorem holdsFor_less : less.HoldsFor s t ↔ s < t := by
  simp [HoldsFor, apply, applyOrder, comparesTexts]

theorem holdsFor_greater : greater.HoldsFor s t ↔ t < s := by
  simp [HoldsFor, apply, applyOrder, comparesTexts]

theorem holdsFor_lessEqual : lessEqual.HoldsFor s t ↔ s ≤ t := by
  simp only [HoldsFor, apply, applyOrder, comparesTexts, Except.ok.injEq, Value.bool.injEq, Bool.not_eq_true',
    decide_eq_false_iff_not, not_lt]

theorem holdsFor_greaterEqual : greaterEqual.HoldsFor s t ↔ t ≤ s := by
  simp only [HoldsFor, apply, applyOrder, comparesTexts, Except.ok.injEq, Value.bool.injEq, Bool.not_eq_true',
    decide_eq_false_iff_not, not_lt]

theorem holdsFor_equal : equal.HoldsFor s t ↔ s = t := by
  simp [HoldsFor, apply, applyEquality, Value.class, Value.isSame]

theorem holdsFor_notEqual : notEqual.HoldsFor s t ↔ s ≠ t := by
  simp [HoldsFor, apply, applyEquality, Value.class, Value.isSame]

/-- Texts can be compared in all six ways. -/
theorem exists_apply_eq_bool (s t : String) {op : BinaryOp} (h : Reduction.isComparison op = true) :
    ∃ b, op.apply (.text s) (.text t) = .ok (.bool b) := by
  cases op with
  | greater | less | greaterEqual | lessEqual | equal | notEqual => exact ⟨_, rfl⟩
  | _ => cases h

/-- Of `<`, `==` and `>` exactly one is true. -/
theorem existsUnique_holdsFor (s t : String) :
    ∃! op : BinaryOp, (op = less ∨ op = equal ∨ op = greater) ∧ op.HoldsFor s t := by
  rcases lt_trichotomy s t with hlt | heq | hgt
  · refine ⟨less, ⟨.inl rfl, holdsFor_less.2 hlt⟩, ?_⟩
    rintro op ⟨rfl | rfl | rfl, h⟩
    · rfl
    · exact absurd (holdsFor_equal.1 h) hlt.ne
    · exact absurd (holdsFor_greater.1 h) hlt.asymm
  · refine ⟨equal, ⟨.inr (.inl rfl), holdsFor_equal.2 heq⟩, ?_⟩
    rintro op ⟨rfl | rfl | rfl, h⟩
    · exact absurd heq (holdsFor_less.1 h).ne
    · rfl
    · exact absurd heq (holdsFor_greater.1 h).ne'
  · refine ⟨greater, ⟨.inr (.inr rfl), holdsFor_greater.2 hgt⟩, ?_⟩
    rintro op ⟨rfl | rfl | rfl, h⟩
    · exact absurd (holdsFor_less.1 h) hgt.asymm
    · exact absurd (holdsFor_equal.1 h) hgt.ne'
    · rfl

end BinaryOp

/-- The comparisons of texts. Each of the six gives a truth value; of `<`, `==` and `>` exactly one is true, the other
three are what their names say, and `<` is transitive. It is the order of the bytes in UTF-8, and that of the code
points, each of them the order of a dictionary. -/
theorem texts_totally_ordered (s t u : String) :
    (∀ op, Reduction.isComparison op = true → ∃ b, op.apply (.text s) (.text t) = .ok (.bool b))
    ∧ (∃! op : BinaryOp, (op = .less ∨ op = .equal ∨ op = .greater) ∧ op.HoldsFor s t)
    ∧ (BinaryOp.lessEqual.HoldsFor s t ↔ BinaryOp.less.HoldsFor s t ∨ BinaryOp.equal.HoldsFor s t)
    ∧ (BinaryOp.greaterEqual.HoldsFor s t ↔ BinaryOp.greater.HoldsFor s t ∨ BinaryOp.equal.HoldsFor s t)
    ∧ (BinaryOp.notEqual.HoldsFor s t ↔ ¬ BinaryOp.equal.HoldsFor s t)
    ∧ (BinaryOp.less.HoldsFor s t → BinaryOp.less.HoldsFor t u → BinaryOp.less.HoldsFor s u)
    ∧ (BinaryOp.less.HoldsFor s t ↔ utf8Bytes s < utf8Bytes t)
    ∧ (utf8Bytes s < utf8Bytes t ↔ codePoints s < codePoints t) := by
  refine ⟨fun op hop => BinaryOp.exists_apply_eq_bool s t hop,
    BinaryOp.existsUnique_holdsFor s t, ?le, ?ge, ?ne, ?trans, ?bytes, ?codePoints⟩
  case le =>
    rw [BinaryOp.holdsFor_lessEqual, BinaryOp.holdsFor_less, BinaryOp.holdsFor_equal]
    exact le_iff_lt_or_eq
  case ge =>
    rw [BinaryOp.holdsFor_greaterEqual, BinaryOp.holdsFor_greater, BinaryOp.holdsFor_equal, eq_comm]
    exact le_iff_lt_or_eq
  case ne => rw [BinaryOp.holdsFor_notEqual, BinaryOp.holdsFor_equal]
  case trans =>
    intro hst htu
    exact BinaryOp.holdsFor_less.2 (lt_trans (BinaryOp.holdsFor_less.1 hst) (BinaryOp.holdsFor_less.1 htu))
  case bytes => rw [BinaryOp.holdsFor_less, utf8Bytes_lt_iff]
  case codePoints => rw [utf8Bytes_lt_iff, codePoints_lt_iff]

/-- Three texts whose code points need one, three and four bytes. In units of sixteen bits the third one would come
before the second. -/
theorem texts_totally_ordered_astral :
    (∃ b, BinaryOp.greaterEqual.apply (.text "z") (.text "\uff5e") = .ok (.bool b))
    ∧ BinaryOp.less.HoldsFor "z" "\uff5e" ∧ BinaryOp.less.HoldsFor "\uff5e" "😀"
    ∧ BinaryOp.less.HoldsFor "z" "😀" := by
  have hfirst : BinaryOp.less.HoldsFor "z" "\uff5e" := BinaryOp.holdsFor_less.2 (by decide)
  have hsecond : BinaryOp.less.HoldsFor "\uff5e" "😀" := BinaryOp.holdsFor_less.2 (by decide)
  obtain ⟨htruth, -, -, -, -, htrans, -⟩ := texts_totally_ordered "z" "\uff5e" "😀"
  exact ⟨htruth .greaterEqual rfl, hfirst, hsecond, htrans hfirst hsecond⟩

end PolishPseudocode
