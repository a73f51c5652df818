import Mathlib.Algebra.Ring.Nat

/-!
# Numbers written out as text

Identifiers are made by printing numbers and joining them with a separator.
Whether two identifiers can collide is then a question about digits: a fixed-width
hexadecimal rendering loses nothing below its width, a decimal one loses nothing
at all, and neither ever contains the separator — so a joined triple splits in
exactly one place. Renderings of one width are also ordered as their numbers are,
whatever follows them.
-/

namespace Mintpool.Lib

/-- The `width` lowest hexadecimal digits of `n`, most significant first, lower case. -/
def hexChars : Nat → Nat → List Char
  | 0, _ => []
  | width + 1, n => hexChars width (n / 16) ++ [Nat.digitChar (n % 16)]

theorem digitChar_inj {m n : Nat} (hm : m < 16) (hn : n < 16)
    (h : Nat.digitChar m = Nat.digitChar n) : m = n := by
  have key : ∀ a b : Fin 16, Nat.digitChar a = Nat.digitChar b → a = b := by decide
  exact congrArg Fin.val (key ⟨m, hm⟩ ⟨n, hn⟩ h)

/-- **Below its width, the hexadecimal rendering is injective.** -/
theorem hexChars_inj : ∀ {width m n : Nat}, m < 16 ^ width → n < 16 ^ width →
    hexChars width m = hexChars width n → m = n := by
  intro width
  induction width with
  | zero => intro m n hm hn _; simp at hm hn; omega
  | succ width ih =>
      intro m n hm hn h
      rw [hexChars, hexChars] at h
      -- a number is fixed by what precedes its last digit, and by that digit
      obtain ⟨hinit, hlast⟩ := List.append_inj' h rfl
      have hdiv : m / 16 = n / 16 :=
        ih (by rw [Nat.pow_succ] at hm; omega) (by rw [Nat.pow_succ] at hn; omega) hinit
      have hmod : m % 16 = n % 16 :=
        digitChar_inj (Nat.mod_lt _ (by decide)) (Nat.mod_lt _ (by decide))
          (List.singleton_inj.mp hlast)
      omega

theorem length_hexChars : ∀ width n : Nat, (hexChars width n).length = width := by
  intro width
  induction width with
  | zero => intro n; rfl
  | succ width ih => intro n; rw [hexChars, List.length_append, ih]; rfl

/-- A width that is not used up is filled with zeros. -/
theorem hexChars_succ_of_lt : ∀ {width n : Nat}, n < 16 ^ width →
    hexChars (width + 1) n = '0' :: hexChars width n := by
  intro width
  induction width with
  | zero => intro n hn; rw [Nat.lt_one_iff.mp hn]; rfl
  | succ width ih =>
      intro n hn
      rw [hexChars, ih (by rw [Nat.pow_succ] at hn; omega)]
      rfl

/-- What follows two texts of one length does not change their order. -/
theorem append_lt_append {α : Type} [LT α] : ∀ {l l' : List α} (s s' : List α),
    l.length = l'.length → l < l' → l ++ s < l' ++ s' := by
  intro l
  induction l with
  | nil =>
      intro l' s s' hlen h
      rw [List.length_eq_zero_iff.mp hlen.symm] at h
      exact absurd h (List.not_lt_nil [])
  | cons a l ih =>
      intro l' s s' hlen h
      cases l' with
      | nil => nomatch hlen
      | cons b l' =>
          rw [List.cons_append, List.cons_append, List.cons_lt_cons_iff]
          rcases List.cons_lt_cons_iff.mp h with hab | ⟨hab, hl⟩
          · exact .inl hab
          · exact .inr ⟨hab, ih s s' (Nat.succ.inj hlen) hl⟩

/-- **Renderings of one width are ordered as the numbers are.** -/
theorem hexChars_lt : ∀ {width m n : Nat}, n < 16 ^ width → m < n →
    hexChars width m < hexChars width n := by
  have hdigit : ∀ a b : Fin 16, a < b → Nat.digitChar a < Nat.digitChar b := by decide
  intro width
  induction width with
  | zero => intro m n hn hlt; simp at hn; omega
  | succ width ih =>
      intro m n hn hlt
      rw [hexChars, hexChars]
      rcases Nat.lt_or_eq_of_le (Nat.div_le_div_right (c := 16) (Nat.le_of_lt hlt)) with hdiv | hdiv
      · -- the leading digits decide
        refine append_lt_append _ _ ?_ (ih (by rw [Nat.pow_succ] at hn; omega) hdiv)
        rw [length_hexChars, length_hexChars]
      · -- they are the same, so the last digit does
        rw [hdiv]
        refine List.append_left_lt (List.cons_lt_cons_iff.mpr (.inl ?_))
        exact hdigit ⟨m % 16, Nat.mod_lt m (by decide)⟩ ⟨n % 16, Nat.mod_lt n (by decide)⟩
          (Fin.mk_lt_mk.mpr (by omega))

/-- Hexadecimal digits are never a colon. -/
theorem colon_not_mem_hexChars : ∀ (width n : Nat), ':' ∉ hexChars width n := by
  intro width
  induction width with
  | zero => intro n; simp [hexChars]
  | succ width ih =>
      intro n
      have key : ∀ a : Fin 16, ':' ≠ Nat.digitChar a := by decide
      rw [hexChars, List.mem_append, List.mem_singleton, not_or]
      exact ⟨ih _, key ⟨n % 16, Nat.mod_lt _ (by decide)⟩⟩

/-- Lower case undoes upper case on a hexadecimal digit, and leaves it as it is. -/
theorem toLower_of_mem_hexChars : ∀ {width n : Nat} {c : Char}, c ∈ hexChars width n →
    c.toLower = c ∧ c.toUpper.toLower = c := by
  have hdigit : ∀ a : Fin 16, (Nat.digitChar a).toLower = Nat.digitChar a
      ∧ (Nat.digitChar a).toUpper.toLower = Nat.digitChar a := by decide
  intro width
  induction width with
  | zero => intro n c h; cases h
  | succ width ih =>
      intro n c h
      rcases List.mem_append.mp h with h | h
      · exact ih h
      · rw [List.mem_singleton.mp h]
        exact hdigit ⟨n % 16, Nat.mod_lt _ (by decide)⟩

/-- A decimal rendering can be read back. -/
theorem repr_inj {m n : Nat} (h : m.repr = n.repr) : m = n := by
  have hdigits : Nat.toDigits 10 m = Nat.toDigits 10 n := by
    rw [← Nat.toList_repr, ← Nat.toList_repr, h]
  rw [← Nat.ofDigitChars_ten_toDigits (n := m), hdigits, Nat.ofDigitChars_ten_toDigits]

/-- Decimal digits are never a colon. -/
theorem colon_not_mem_repr (n : Nat) : ':' ∉ n.repr.toList := by
  rw [Nat.toList_repr]
  intro h
  have := Nat.isDigit_of_mem_toDigits (by decide) (by decide) h
  exact absurd this (by decide)

/-- A separator that occurs in neither prefix splits the text in one place. -/
theorem append_sep_inj {α : Type} {sep : α} :
    ∀ {a a' r r' : List α}, sep ∉ a → sep ∉ a' → a ++ sep :: r = a' ++ sep :: r' →
      a = a' ∧ r = r' := by
  intro a
  induction a with
  | nil =>
      intro a' r r' _ ha' h
      -- the separator ends the first word, so it cannot be inside the second
      cases a' with
      | nil => exact ⟨rfl, (List.cons.inj h).2⟩
      | cons x xs => exact absurd (by rw [(List.cons.inj h).1]; exact List.mem_cons_self) ha'
  | cons x xs ih =>
      intro a' r r' ha ha' h
      cases a' with
      | nil => exact absurd (by rw [← (List.cons.inj h).1]; exact List.mem_cons_self) ha
      | cons y ys =>
          obtain ⟨hxy, htail⟩ := List.cons.inj h
          obtain ⟨h1, h2⟩ := ih (fun hc => ha (List.mem_cons_of_mem _ hc))
            (fun hc => ha' (List.mem_cons_of_mem _ hc)) htail
          exact ⟨by rw [hxy, h1], h2⟩

/-- So a triple joined by it splits in one place too. -/
theorem join_inj {α : Type} {sep : α} {a a' b b' c c' : List α}
    (ha : sep ∉ a) (ha' : sep ∉ a') (hb : sep ∉ b) (hb' : sep ∉ b')
    (h : a ++ sep :: (b ++ sep :: c) = a' ++ sep :: (b' ++ sep :: c')) :
    a = a' ∧ b = b' ∧ c = c' := by
  obtain ⟨h1, h2⟩ := append_sep_inj ha ha' h
  obtain ⟨h3, h4⟩ := append_sep_inj hb hb' h2
  exact ⟨h1, h3, h4⟩

end Mintpool.Lib
