/-
  Timely/Library/Words.lean
  =========================
  **Words in lexicographic order.**

  In an ascending list of words those that start with a given prefix stand
  together, from the place of the prefix itself on, and the symbols that follow
  the prefix in them ascend.
-/
import Timely.Library.Sorted
import Mathlib.Data.List.Lex

namespace Library

variable {A : Type*} [LinearOrder A] {stem word word' : List A}

theorem prefix_le (h : stem <+: word) : stem ≤ word :=
  not_lt.mp (List.IsPrefix.le h)

/-- A word between a stem and a word that starts with it starts with it, too. -/
theorem prefix_of_between (hstem : stem ≤ word) (hle : word ≤ word') (h : stem <+: word') :
    stem <+: word := by
  induction stem generalizing word word' with
  | nil => exact List.nil_prefix
  | cons a stem ih =>
    obtain ⟨rest, rfl⟩ := h
    cases word with
    | nil => exact absurd (List.nil_lt_cons a stem) (not_lt.mpr hstem)
    | cons b word =>
      have hstem' := not_lt.mpr hstem
      have hle' := not_lt.mpr hle
      rw [List.cons_lt_cons_iff, not_or] at hstem'
      rw [List.cons_append, List.cons_lt_cons_iff, not_or] at hle'
      obtain rfl : a = b := le_antisymm (not_lt.mp hstem'.1) (not_lt.mp hle'.1)
      have hrest : stem <+: word :=
        ih (not_lt.mp fun hlt => hstem'.2 ⟨rfl, hlt⟩) (not_lt.mp fun hlt => hle'.2 ⟨rfl, hlt⟩)
          (List.prefix_append stem rest)
      exact List.cons_prefix_cons.mpr ⟨rfl, hrest⟩

omit [LinearOrder A] in
/-- The symbol after a stem is what the stem can be extended by. -/
theorem concat_prefix_iff {symbol : A} :
    stem ++ [symbol] <+: word ↔ stem <+: word ∧ word[stem.length]? = some symbol := by
  constructor
  · rintro ⟨rest, rfl⟩
    refine ⟨⟨symbol :: rest, by rw [List.append_assoc, List.singleton_append]⟩, ?_⟩
    rw [List.append_assoc, List.getElem?_append_right le_rfl, Nat.sub_self]
    rfl
  · rintro ⟨⟨rest, rfl⟩, hsymbol⟩
    rw [List.getElem?_append_right le_rfl, Nat.sub_self] at hsymbol
    cases rest with
    | nil => cases hsymbol
    | cons a rest =>
      cases hsymbol
      exact ⟨rest, by rw [List.append_assoc, List.singleton_append]⟩

/-- Greater words have greater or equal symbols after a stem. -/
theorem symbol_le_symbol {a b : A} (h : stem <+: word) (h' : stem <+: word') (hle : word ≤ word')
    (ha : word[stem.length]? = some a) (hb : word'[stem.length]? = some b) : a ≤ b := by
  obtain ⟨rest, rfl⟩ := concat_prefix_iff.mpr ⟨h, ha⟩
  obtain ⟨rest', rfl⟩ := concat_prefix_iff.mpr ⟨h', hb⟩
  by_contra hlt
  refine not_lt.mpr hle ?_
  rw [List.append_assoc, List.append_assoc, List.singleton_append, List.singleton_append]
  exact List.append_left_lt (List.cons_lt_cons_iff.mpr (Or.inl (not_le.mp hlt)))

/-- The words that start with a stem stand together from the place of the stem on. -/
theorem takeWhile_drop_eq_filter {words : List (List A)} {place : ℕ}
    (hsorted : words.Pairwise fun first second => first < second)
    (hbefore : ∀ word ∈ words.take place, word < stem) (hafter : ∀ word ∈ words.drop place, stem ≤ word) :
    (words.drop place).takeWhile (stem.isPrefixOf ·) = words.filter (stem.isPrefixOf ·) := by
  have hnone : (words.take place).filter (stem.isPrefixOf ·) = [] := by
    rw [List.filter_eq_nil_iff]
    intro word hword hprefix
    exact not_lt.mpr (prefix_le (List.isPrefixOf_iff_prefix.mp hprefix)) (hbefore word hword)
  have htogether : (words.drop place).takeWhile (stem.isPrefixOf ·)
      = (words.drop place).filter (stem.isPrefixOf ·) := by
    refine takeWhile_eq_filter ?_
    refine (hsorted.sublist (List.drop_sublist place words)).imp_of_mem ?_
    intro first second hfirst _ hlt hprefix
    exact List.isPrefixOf_iff_prefix.mpr
      (prefix_of_between (hafter first hfirst) hlt.le (List.isPrefixOf_iff_prefix.mp hprefix))
  conv_rhs => rw [← List.take_append_drop place words]
  rw [List.filter_append, hnone, List.nil_append, htogether]

/-- The symbols that follow a stem in ascending words ascend. -/
theorem pairwise_symbols {words : List (List A)} (hsorted : words.Pairwise fun first second => first < second)
    (hstem : ∀ word ∈ words, stem <+: word) :
    (words.filterMap fun word => word[stem.length]?).Pairwise fun a b => a ≤ b := by
  refine List.pairwise_filterMap.mpr (hsorted.imp_of_mem ?_)
  intro first second hfirst hsecond hlt a ha b hb
  exact symbol_le_symbol (hstem first hfirst) (hstem second hsecond) hlt.le ha hb

end Library
