import RingStore.Journal
import RingStore.Proofs.Disk.Entry
import Mathlib.Data.List.TakeWhile
import Std.Data.String.ToNat

/-!
# The names of records

The file of a record bears its number, written without zeros in front. A name is taken for that of a
record in whatever way the number is spelled: with any number of zeros in front of it, and perhaps a
plus sign before them (`indexOf?_eq_some_iff`). So every record is found by its name, and a name
stands for one number at most; but there are names that no record has and that are taken for one.
-/

namespace RingStore

open Disk Disk.Attempt

/-! ## Numbers and how they are spelled -/

namespace Numeral

variable {greatest value n m : Nat} {cs : List Char} {c : Char} {s : String}

/-- More digits do not make a number smaller. -/
theorem le_ofDigitChars (cs : List Char) (value : Nat) : value ≤ Nat.ofDigitChars 10 cs value := by
  rw [Nat.ofDigitChars_eq_ofDigitChars_zero]
  have hpos : 0 < Nat.pow 10 cs.length := Nat.pow_pos (by omega)
  exact Nat.le_add_right_of_le (Nat.le_mul_of_pos_left _ hpos)

/-- Digits are read as the number that they stand for, if it is small enough. -/
theorem readDigits_eq_ok_iff (hvalue : value ≤ greatest) : readDigits greatest value cs = .ok n ↔
    (∀ c ∈ cs, c.isDigit) ∧ Nat.ofDigitChars 10 cs value = n ∧ n ≤ greatest := by
  induction cs generalizing value with
  | nil =>
    simp only [readDigits, Except.ok.injEq, Nat.ofDigitChars_nil]
    refine ⟨?_, fun h => h.2.1⟩
    rintro rfl
    exact ⟨by simp, rfl, hvalue⟩
  | cons c cs ih =>
    rw [List.forall_mem_cons, Nat.ofDigitChars_cons]
    by_cases hdigit : c.isDigit
    · have hd : digit? c = some (c.toNat - 48) := by simp [digit?, hdigit]
      have hstep : value * 10 + (c.toNat - 48) = 10 * value + (c.toNat - '0'.toNat) := by
        rw [Nat.mul_comm]
        rfl
      simp only [readDigits, hd, hstep, hdigit, true_and]
      by_cases hle : 10 * value + (c.toNat - '0'.toNat) ≤ greatest
      · rw [if_neg (by omega), ih hle]
      · rw [if_pos (by omega)]
        refine ⟨fun h => (nomatch h), ?_⟩
        rintro ⟨-, rfl, hbound⟩
        exact absurd (Nat.le_trans (le_ofDigitChars cs _) hbound) hle
    · have hd : digit? c = none := by simp [digit?, hdigit]
      simp [readDigits, hd, hdigit]

/-- The digits of a number behind some zeros. -/
def padded (zeros n : Nat) : List Char := List.replicate zeros '0' ++ Nat.toDigits 10 n

theorem padded_ne_nil (zeros n : Nat) : padded zeros n ≠ [] :=
  List.append_ne_nil_of_right_ne_nil _ Nat.toDigits_ne_nil

theorem isDigit_of_mem_padded {zeros : Nat} (hc : c ∈ padded zeros n) : c.isDigit := by
  rcases List.mem_append.1 hc with hc | hc
  · rw [List.eq_of_mem_replicate hc]
    rfl
  · exact Nat.isDigit_of_mem_toDigits (by omega) (by omega) hc

theorem ofDigitChars_padded (zeros n : Nat) : Nat.ofDigitChars 10 (padded zeros n) 0 = n := by
  rw [padded, Nat.ofDigitChars_append, Nat.ofDigitChars_replicate_zero, Nat.mul_zero,
    Nat.ofDigitChars_ten_toDigits]

theorem toDigits_toNat (hc : c.isDigit) :
    c.toNat - 48 < 10 ∧ Nat.toDigits 10 (c.toNat - 48) = [c] := by
  obtain ⟨hlow, hhigh⟩ := Char.isDigit_iff_toNat.1 hc
  have hlow : 48 ≤ c.toNat := hlow
  have hhigh : c.toNat ≤ 57 := hhigh
  have hlt : c.toNat - 48 < 10 := by omega
  refine ⟨hlt, ?_⟩
  rw [Nat.toDigits_of_lt_base hlt, List.singleton_inj, ← Char.toNat_inj,
    Nat.toNat_digitChar_of_lt_ten hlt]
  omega

/-- A digit behind those of a number. Behind a lone zero it makes that one more zero in front. -/
theorem exists_padded_append (hc : c.isDigit) (zeros n : Nat) :
    ∃ zeros', padded zeros n ++ [c] = padded zeros' (10 * n + (c.toNat - 48)) := by
  obtain ⟨hlt, hdigit⟩ := toDigits_toNat hc
  by_cases hn : n = 0
  · refine ⟨zeros + 1, ?_⟩
    rw [hn, padded, padded, Nat.toDigits_zero, Nat.mul_zero, Nat.zero_add, hdigit,
      List.replicate_succ']
  · refine ⟨zeros, ?_⟩
    rw [padded, padded, ← Nat.toDigits_append_toDigits (by omega) (by omega) hlt, hdigit,
      List.append_assoc]

/-- All digits are those of the number that they stand for, behind some zeros. -/
theorem exists_eq_padded (hne : cs ≠ []) (hdigit : ∀ c ∈ cs, c.isDigit) :
    ∃ zeros, cs = padded zeros (Nat.ofDigitChars 10 cs 0) := by
  induction cs using List.reverseRecOn with
  | nil => exact absurd rfl hne
  | append_singleton cs c ih =>
    have hc : c.isDigit := hdigit c (by simp)
    have hlast : Nat.ofDigitChars 10 (cs ++ [c]) 0 =
        10 * Nat.ofDigitChars 10 cs 0 + (c.toNat - 48) := by
      rw [Nat.ofDigitChars_append, Nat.ofDigitChars_cons, Nat.ofDigitChars_nil]
      rfl
    rw [hlast]
    by_cases hcs : cs = []
    · refine ⟨0, ?_⟩
      rw [hcs, Nat.ofDigitChars_nil, Nat.mul_zero, Nat.zero_add, padded, (toDigits_toNat hc).2]
      rfl
    · obtain ⟨zeros, heq⟩ := ih hcs fun x hx => hdigit x (List.mem_append_left _ hx)
      obtain ⟨zeros', happend⟩ := exists_padded_append hc zeros (Nat.ofDigitChars 10 cs 0)
      exact ⟨zeros', by rw [← happend, ← heq]⟩

theorem readDigits_eq_ok_iff_padded (hne : cs ≠ []) :
    readDigits greatest 0 cs = .ok n ↔ (∃ zeros, cs = padded zeros n) ∧ n ≤ greatest := by
  rw [readDigits_eq_ok_iff (Nat.zero_le _)]
  constructor
  · rintro ⟨hdigit, rfl, hle⟩
    exact ⟨exists_eq_padded hne hdigit, hle⟩
  · rintro ⟨⟨zeros, rfl⟩, hle⟩
    exact ⟨fun c hc => isDigit_of_mem_padded hc, ofDigitChars_padded zeros n, hle⟩

/-- The text spells the number: its digits stand behind any number of zeros, and perhaps a plus sign
before them. -/
def Spells (s : String) (n : Nat) : Prop :=
  ∃ sign ∈ [[], ['+']], ∃ zeros, s.toList = sign ++ padded zeros n

theorem spells_iff_of_plus (hs : s.toList = '+' :: cs) :
    Spells s n ↔ ∃ zeros, cs = padded zeros n := by
  constructor
  · rintro ⟨sign, hsign, zeros, heq⟩
    rw [hs] at heq
    rcases List.mem_pair.1 hsign with rfl | rfl
    · have hplus : '+' ∈ padded zeros n := by
        rw [← List.nil_append (padded zeros n), ← heq]
        exact List.mem_cons_self
      exact absurd (isDigit_of_mem_padded hplus) (by decide)
    · exact ⟨zeros, (List.cons.inj heq).2⟩
  · rintro ⟨zeros, rfl⟩
    exact ⟨['+'], by simp, zeros, hs⟩

theorem spells_iff_of_ne_plus (hs : ∀ cs, s.toList ≠ '+' :: cs) :
    Spells s n ↔ ∃ zeros, s.toList = padded zeros n := by
  constructor
  · rintro ⟨sign, hsign, zeros, heq⟩
    rcases List.mem_pair.1 hsign with rfl | rfl
    · exact ⟨zeros, heq⟩
    · exact absurd heq (hs _)
  · rintro ⟨zeros, heq⟩
    exact ⟨[], by simp, zeros, heq⟩

/-- A text is read as the number that it spells, if this is small enough. -/
theorem read_eq_ok_iff : read greatest s = .ok n ↔ Spells s n ∧ n ≤ greatest := by
  have hnone : ∀ f, (.error f : Except Problem Nat) = .ok n ↔
      (∃ zeros, [] = padded zeros n) ∧ n ≤ greatest := fun f =>
    ⟨fun h => (nomatch h), fun ⟨⟨zeros, heq⟩, _⟩ => absurd heq.symm (padded_ne_nil zeros n)⟩
  unfold read
  split
  · rename_i hs
    rw [spells_iff_of_ne_plus (by simp [hs]), hs]
    exact hnone _
  · rename_i hs
    rw [spells_iff_of_plus hs]
    exact hnone _
  · rename_i digits hlone hs
    rw [spells_iff_of_plus hs]
    exact readDigits_eq_ok_iff_padded hlone
  · rename_i hnil hlone hplus
    rw [spells_iff_of_ne_plus hplus]
    exact readDigits_eq_ok_iff_padded hnil

/-- A text spells one number at most. -/
theorem Spells.unique (hn : Spells s n) (hm : Spells s m) : n = m := by
  have hread : read (max n m) s = .ok n := read_eq_ok_iff.2 ⟨hn, Nat.le_max_left n m⟩
  have hread' : read (max n m) s = .ok m := read_eq_ok_iff.2 ⟨hm, Nat.le_max_right n m⟩
  exact Except.ok.inj (hread.symm.trans hread')

theorem spells_toString (n : Nat) : Spells (toString n) n :=
  ⟨[], by simp, 0, Nat.toList_repr⟩

end Numeral

namespace Journal

variable {name stem extension : String} {i j : Nat}

/-- The name of a record's file. -/
def recordName (index : Nat) : String := s!"{toString index}.{entryExtension}"

theorem recordPath_eq (dir : Path) (index : Nat) :
    recordPath dir index = dir ++ [recordName index] := rfl

theorem recordName_injective : Function.Injective recordName := by
  intro i j h
  have hpath : entryPath [] (toString i) = entryPath [] (toString j) :=
    congrArg (fun name => [name]) h
  exact Nat.repr_injective (entryPath_inj hpath)

/-- The number of records that a name can stand for. -/
def recordBound : Nat := 18446744073709551616

/-! ## Names and the numbers that they stand for -/

/-- A name is split at its last dot, if there is one and something in front of it. -/
theorem splitExtension_eq_some_iff : splitExtension name = some (stem, extension) ↔
    name = stem ++ "." ++ extension ∧ stem ≠ "" ∧ '.' ∉ extension.toList := by
  constructor
  · intro h
    have hparts :
        name.toList.reverse.takeWhile (· ≠ '.') ++ name.toList.reverse.dropWhile (· ≠ '.') =
        name.toList.reverse := List.takeWhile_append_dropWhile
    have hbehind : '.' ∉ name.toList.reverse.takeWhile (· ≠ '.') := fun hmem => by
      simpa using List.mem_takeWhile_imp hmem
    simp only [splitExtension] at h
    split at h
    · rename_i dot c cs heq
      obtain ⟨rfl, rfl⟩ := Prod.mk.inj (Option.some.inj h)
      have hdot : dot = '.' := by
        have hne : name.toList.reverse.dropWhile (· ≠ '.') ≠ [] := heq ▸ List.cons_ne_nil _ _
        have hhead := List.head_dropWhile_not (· ≠ '.') hne
        simp only [heq, List.head_cons] at hhead
        simpa using hhead
      rw [heq, hdot] at hparts
      generalize name.toList.reverse.takeWhile (· ≠ '.') = last at hparts hbehind ⊢
      refine ⟨?_, by simp, by simpa using hbehind⟩
      rw [← String.toList_inj, ← List.reverse_inj, ← hparts]
      simp
    · cases h
  · rintro ⟨rfl, hstem, hextension⟩
    have hall : ∀ c ∈ extension.toList.reverse, (!decide (c = '.')) = true := by
      intro c hc
      simp only [Bool.not_eq_true', decide_eq_false_iff_not]
      rintro rfl
      exact hextension (List.mem_reverse.1 hc)
    have hback : (stem ++ "." ++ extension).toList.reverse =
        extension.toList.reverse ++ '.' :: stem.toList.reverse := by simp
    have hdrop : (extension.toList.reverse ++ '.' :: stem.toList.reverse).dropWhile
        (fun c => !decide (c = '.')) = '.' :: stem.toList.reverse := by
      rw [List.dropWhile_append_of_pos hall, List.dropWhile_cons_of_neg (by simp)]
    have htake : (extension.toList.reverse ++ '.' :: stem.toList.reverse).takeWhile
        (fun c => !decide (c = '.')) = extension.toList.reverse := by
      rw [List.takeWhile_append_of_pos hall, List.takeWhile_cons_of_neg (by simp), List.append_nil]
    obtain ⟨c, cs, hcs⟩ := List.exists_cons_of_ne_nil
      (List.reverse_ne_nil_iff.2 (mt String.toList_eq_nil_iff.1 hstem))
    rw [hcs] at hback hdrop htake
    have hofList : String.ofList (c :: cs).reverse = stem := by
      rw [← hcs, List.reverse_reverse, String.ofList_toList]
    simp only [splitExtension, ne_eq, decide_not, hback, hdrop, htake, hofList,
      List.reverse_reverse, String.ofList_toList]

/-- The name is that of a record, with the number spelled in one way or another. -/
def Spells (name : String) (index : Nat) : Prop :=
  ∃ stem, Numeral.Spells stem index ∧ name = s!"{stem}.{entryExtension}"

theorem spells_recordName (i : Nat) : Spells (recordName i) i :=
  ⟨toString i, Numeral.spells_toString i, rfl⟩

/-- A name stands for one number at most. -/
theorem Spells.unique (hi : Spells name i) (hj : Spells name j) : i = j := by
  obtain ⟨stem, hi, rfl⟩ := hi
  obtain ⟨stem', hj, hname⟩ := hj
  have hpath : entryPath [] stem = entryPath [] stem' := congrArg (fun name => [name]) hname
  obtain rfl := entryPath_inj hpath
  exact hi.unique hj

/-- A name stands for the number that it spells, if this is one that the journal can count to. -/
theorem indexOf?_eq_some_iff : indexOf? name = some i ↔ Spells name i ∧ i < recordBound := by
  have hread : ∀ stem : String, (Numeral.read 18446744073709551615 stem).toOption = some i ↔
      Numeral.Spells stem i ∧ i < recordBound := by
    intro stem
    have hbound : i < recordBound ↔ i ≤ 18446744073709551615 := Nat.lt_succ_iff
    rw [hbound, ← Numeral.read_eq_ok_iff]
    cases Numeral.read 18446744073709551615 stem <;> simp [Except.toOption]
  constructor
  · intro h
    unfold indexOf? at h
    split at h
    · rename_i stem extension hsplit
      split at h
      · rename_i hextension
        obtain ⟨hname, -, -⟩ := splitExtension_eq_some_iff.1 hsplit
        obtain ⟨hspells, hlt⟩ := (hread stem).1 h
        exact ⟨⟨stem, hspells, by rw [hname, hextension]; rfl⟩, hlt⟩
      · cases h
    · cases h
  · rintro ⟨⟨stem, hspells, hname⟩, hlt⟩
    have hstem : stem ≠ "" := by
      rintro rfl
      obtain ⟨sign, -, zeros, heq⟩ := hspells
      exact absurd (List.append_eq_nil_iff.1 heq.symm).2 (Numeral.padded_ne_nil zeros i)
    have hsplit : splitExtension name = some (stem, entryExtension) :=
      splitExtension_eq_some_iff.2 ⟨hname, hstem, by decide⟩
    simp only [indexOf?, hsplit, if_true]
    exact (hread stem).2 ⟨hspells, hlt⟩

/-- The name of a record's file gives its number back. -/
theorem indexOf?_recordName (h : i < recordBound) : indexOf? (recordName i) = some i :=
  indexOf?_eq_some_iff.2 ⟨spells_recordName i, h⟩

end Journal

end RingStore
