import Reckoner.Proofs.Token.Pieces

/-!
# What follows a piece

Where a piece ends is decided by the one character after it, and a blank ends it as well.
So the text after a piece may be exchanged for another one that begins with the same
character or with a blank, or is empty.

* `Resembles`: the texts that may come in place of another one;
* `Number.IsLocal`: a reader that takes the same characters then. The readers of digits,
  fractions and exponents do, so that numbers are taken the same way
  (`Number.signed_of_resembles`);
* `Piece.IsHead.of_resembles`: the same piece is cut off.
-/

namespace Reckoner

/-- A text begins like another one, or with a blank, or is empty. -/
def Resembles (rest rest' : List Char) : Prop :=
  ∀ d ∈ rest'.head?, isBlank d = true ∨ d ∈ rest.head?

variable {rest rest' : List Char}

theorem Resembles.append (cs : List Char) (h : Resembles rest rest') :
    Resembles (cs ++ rest) (cs ++ rest') := by
  cases cs with
  | nil => exact h
  | cons c cs => exact fun d hd => .inr hd

theorem resembles_cons (c : Char) (cs ds : List Char) : Resembles (c :: cs) (c :: ds) :=
  fun _ hd => .inr hd

/-- What holds of blanks and of the first character holds of the new first character. -/
theorem Resembles.forall_head {P : Char → Prop} (h : Resembles rest rest')
    (hblank : ∀ d, isBlank d = true → P d) (hr : ∀ d ∈ rest.head?, P d) :
    ∀ d ∈ rest'.head?, P d :=
  fun d hd => (h d hd).elim (hblank d) (hr d)

theorem separates_of_isBlank {c : Char} (h : isBlank c = true) : Separates c :=
  have hdetached : Detached [c] := detached_cons (.inl h)
  hdetached.head rfl

/-! ## Numbers -/

namespace Number

variable {caret : Caret} {p : Char → Bool} {c : Char} {cs : List Char}

/-- What a reader takes off a text it takes off with any similar text after it. -/
def IsLocal (read : List Char → List Char × List Char) : Prop :=
  ∀ cs rest', Resembles (read cs).2 rest' → read ((read cs).1 ++ rest') = ((read cs).1, rest')

theorem IsLocal.eq {read : List Char → List Char × List Char} (hread : IsLocal read)
    {taken : List Char} (h : read cs = (taken, rest)) (hr : Resembles rest rest') :
    read (taken ++ rest') = (taken, rest') := by
  have hlocal := hread cs rest'
  rw [h] at hlocal
  exact hlocal hr

theorem isLocal_sign : IsLocal sign := by
  intro cs rest' h
  unfold sign at h ⊢
  split at h
  · rfl
  · rename_i hno
    refine sign_of_minus (.inl rfl) (h.forall_head (fun d hd => ?_) fun d hd => ?_)
    · exact (separates_of_isBlank hd).ne_minus
    · rintro rfl
      obtain ⟨ds, rfl⟩ := List.head?_eq_some_iff.mp hd
      exact hno ds rfl

theorem isLocal_digits (hp : ∀ d, isBlank d = true → p d = false) : IsLocal (digits p) := by
  intro cs rest' h
  refine digits_of_forall (fun c hc => List.mem_takeWhile_imp hc) (h.forall_head hp fun d hd => ?_)
  have hnot := List.head?_dropWhile_not p cs
  rw [show (cs.dropWhile p).head? = some d from hd] at hnot
  exact hnot

theorem isBinary_of_isBlank (h : isBlank c = true) : Digit.isBinary c = false := by
  have hdigit := (separates_of_isBlank h).isDigit
  simp only [Digit.isBinary, Bool.or_eq_false_iff, decide_eq_false_iff_not]
  constructor <;> rintro rfl <;> exact absurd hdigit (by decide)

theorem isLocal_decimalDigits : IsLocal (digits Char.isDigit) :=
  isLocal_digits fun _ hd => (separates_of_isBlank hd).isDigit

theorem isLocal_fraction : IsLocal fraction := by
  intro cs rest' h
  unfold fraction at h ⊢
  split at h
  · rename_i cs
    simp only [List.cons_append, isLocal_decimalDigits cs rest' h]
  · rename_i hno
    refine fraction_of_ne (h.forall_head (fun d hd => ?_) fun d hd => ?_)
    · exact (separates_of_isBlank hd).ne_point
    · rintro rfl
      obtain ⟨ds, rfl⟩ := List.head?_eq_some_iff.mp hd
      exact hno ds rfl

theorem isLocal_exponent (caret : Caret) : IsLocal (exponent caret) := by
  intro cs rest' h
  unfold exponent at h
  split at h
  · rename_i cs
    split_ifs at h with hcaret
    · obtain ⟨minus, body, hsign⟩ : ∃ minus body, sign cs = (minus, body) := ⟨_, _, rfl⟩
      obtain ⟨power, rest, hpower⟩ : ∃ power rest, digits Char.isDigit body = (power, rest) :=
        ⟨_, _, rfl⟩
      simp only [hsign, hpower] at h
      have hbody : power ++ rest = body := by
        simpa only [hpower] using digits_append Char.isDigit body
      have hsign' := isLocal_sign.eq hsign (hbody ▸ h.append power)
      have hpower' := isLocal_decimalDigits.eq hpower h
      simp only [exponent, if_pos hcaret, hsign, hpower, List.cons_append, List.append_assoc,
        hsign', hpower']
    · -- the caret is no part of the number, and may come again
      have hno : exponent caret ('^' :: cs) = ([], '^' :: cs) := by simp [exponent, hcaret]
      rw [hno, List.nil_append]
      unfold exponent
      split
      · rw [if_neg hcaret]
      · rfl
  · rename_i hno
    have hne : exponent caret cs = ([], cs) := exponent_of_ne fun d hd => by
      rintro rfl
      obtain ⟨ds, rfl⟩ := List.head?_eq_some_iff.mp hd
      exact hno ds rfl
    rw [hne, List.nil_append]
    refine exponent_of_ne (h.forall_head (fun d hd => ?_) fun d hd => ?_)
    · exact (separates_of_isBlank hd).ne_caret
    · rintro rfl
      obtain ⟨ds, rfl⟩ := List.head?_eq_some_iff.mp hd
      exact hno ds rfl

/-- A number without the prefix of another base. -/
theorem unsigned_of_take {whole point power r r' : List Char} (hx : cs.take 2 ≠ ['0', 'x'])
    (hb : cs.take 2 ≠ ['0', 'b']) (hwhole : digits Char.isDigit cs = (whole, r))
    (hpoint : fraction r = (point, r')) (hpower : exponent caret r' = (power, rest)) :
    unsigned caret cs =
      (if power ≠ [] then .power else if point ≠ [] then .decimal else .integer,
        whole ++ point ++ power, rest) := by
  unfold unsigned
  split
  · exact absurd rfl hx
  · exact absurd rfl hb
  · simp only [hwhole, hpoint, hpower]

/-- The first two characters stay, unless the text that is exchanged begins before them. Then
    the second one is the same or a blank. -/
theorem take_two_ne {ds : List Char} {mark : Char} (hne : ds ≠ []) (hmark : isBlank mark = false)
    (h : Resembles rest rest') (ht : (ds ++ rest).take 2 ≠ ['0', mark]) :
    (ds ++ rest').take 2 ≠ ['0', mark] := by
  obtain ⟨c, ds, rfl⟩ := List.exists_cons_of_ne_nil hne
  cases ds with
  | cons d ds => exact ht
  | nil =>
    intro heq
    cases rest' with
    | nil => cases heq
    | cons d rest' =>
      obtain ⟨rfl, rfl⟩ : c = '0' ∧ d = mark := by simpa using heq
      rcases h d rfl with hd | hd
      · rw [hmark] at hd
        cases hd
      · obtain ⟨ds, rfl⟩ := List.head?_eq_some_iff.mp hd
        exact ht rfl

theorem unsigned_of_resembles (hc : c.isDigit = true)
    (h : Resembles (unsigned caret (c :: cs)).2.2 rest') :
    unsigned caret ((unsigned caret (c :: cs)).2.1 ++ rest') =
      ((unsigned caret (c :: cs)).1, (unsigned caret (c :: cs)).2.1, rest') := by
  by_cases hx : (c :: cs).take 2 = ['0', 'x']
  · obtain ⟨ds, hds⟩ : ∃ ds, c :: cs = '0' :: 'x' :: ds :=
      ⟨(c :: cs).drop 2, by rw [← List.take_append_drop 2 (c :: cs), hx]; rfl⟩
    rw [hds] at h ⊢
    have hdigits := isLocal_digits (p := Digit.isHex)
      (fun _ hd => (separates_of_isBlank hd).isHex) ds rest' h
    simp only [unsigned, List.cons_append, hdigits]
  by_cases hb : (c :: cs).take 2 = ['0', 'b']
  · obtain ⟨ds, hds⟩ : ∃ ds, c :: cs = '0' :: 'b' :: ds :=
      ⟨(c :: cs).drop 2, by rw [← List.take_append_drop 2 (c :: cs), hb]; rfl⟩
    rw [hds] at h ⊢
    have hdigits := isLocal_digits (p := Digit.isBinary)
      (fun _ hd => isBinary_of_isBlank hd) ds rest' h
    simp only [unsigned, List.cons_append, hdigits]
  · obtain ⟨whole, r, hwhole⟩ : ∃ whole r, digits Char.isDigit (c :: cs) = (whole, r) :=
      ⟨_, _, rfl⟩
    obtain ⟨point, r', hpoint⟩ : ∃ point r', fraction r = (point, r') := ⟨_, _, rfl⟩
    obtain ⟨power, rest, hpower⟩ : ∃ power rest, exponent caret r' = (power, rest) :=
      ⟨_, _, rfl⟩
    have htext : whole ++ r = c :: cs := by
      simpa only [hwhole] using digits_append Char.isDigit (c :: cs)
    have hr : point ++ r' = r := by simpa only [hpoint] using fraction_append r
    have hr' : power ++ rest = r' := by simpa only [hpower] using exponent_append caret r'
    have hne : whole ≠ [] := by
      rintro rfl
      simp [digits, hc] at hwhole
    rw [unsigned_of_take hx hb hwhole hpoint hpower] at h ⊢
    -- each reader sees a text that resembles the one it saw before
    have hafter' : Resembles r' (power ++ rest') := hr' ▸ h.append power
    have hafter : Resembles r (point ++ (power ++ rest')) := hr ▸ hafter'.append point
    have hdigits := isLocal_decimalDigits.eq hwhole hafter
    have hfraction := isLocal_fraction.eq hpoint hafter'
    have hexponent := (isLocal_exponent caret).eq hpower h
    have htake {mark : Char} (hm : isBlank mark = false)
        (ht : (c :: cs).take 2 ≠ ['0', mark]) :
        (whole ++ (point ++ (power ++ rest'))).take 2 ≠ ['0', mark] :=
      take_two_ne hne hm hafter (htext ▸ ht)
    simp only [List.append_assoc]
    rw [unsigned_of_take (htake (by decide) hx) (htake (by decide) hb) hdigits hfraction hexponent]
    simp only [List.append_assoc]

/-- What is taken for a number stays one, whatever similar text comes after it. -/
theorem signed_of_resembles {f : Literal.Format} {taken : List Char} (hc : BeginsNumber cs)
    (hs : signed caret cs = (f, taken, rest)) (h : Resembles rest rest') :
    signed caret (taken ++ rest') = (f, taken, rest') := by
  obtain ⟨minus, body, hsign⟩ : ∃ minus body, sign cs = (minus, body) := ⟨_, _, rfl⟩
  obtain ⟨f', digits, rest₁, hunsigned⟩ : ∃ f' digits rest₁,
      unsigned caret body = (f', digits, rest₁) := ⟨_, _, _, rfl⟩
  simp only [signed, hsign, hunsigned, Prod.mk.injEq] at hs
  obtain ⟨rfl, rfl, rfl⟩ := hs
  have hbody : digits ++ rest₁ = body := by
    simpa only [hunsigned] using unsigned_append caret body
  have hsign' := isLocal_sign.eq hsign (hbody ▸ h.append digits)
  obtain ⟨d, ds, rfl, hd⟩ : ∃ d ds, body = d :: ds ∧ d.isDigit = true := by
    obtain ⟨d, ds, rfl, hd | ⟨rfl, hdigit⟩⟩ := hc
    · have hsign₁ : sign (d :: ds) = ([], d :: ds) :=
        sign_of_minus (.inl rfl) fun e he => by
          obtain rfl : d = e := by simpa using he
          rintro rfl
          exact absurd hd (by decide)
      exact ⟨d, ds, (Prod.mk.inj (hsign.symm.trans hsign₁)).2, hd⟩
    · cases ds with
      | nil => cases hdigit
      | cons d ds => exact ⟨d, ds, (Prod.mk.inj hsign).2.symm, by simpa using hdigit⟩
  have hunsigned' := unsigned_of_resembles hd (show Resembles (unsigned caret (d :: ds)).2.2 rest' by rwa [hunsigned])
  rw [hunsigned] at hunsigned'
  simp only [signed, List.append_assoc, hsign', hunsigned']

end Number

/-! ## Pieces -/

namespace Piece

variable {caret : Caret} {signs : Bool} {c : Char} {cs ds : List Char} {p : Piece}

theorem startsNumber_of_resembles (hs : startsNumber signs c cs = false)
    (h : Resembles cs rest') : startsNumber signs c rest' = false := by
  simp only [startsNumber, Bool.or_eq_false_iff] at hs ⊢
  refine ⟨hs.1, ?_⟩
  cases rest' with
  | nil => simp
  | cons d rest' =>
    rcases h d rfl with hd | hd
    · simp [(separates_of_isBlank hd).isDigit]
    · obtain ⟨ds, rfl⟩ := List.head?_eq_some_iff.mp hd
      exact hs.2

theorem startsNumber_append (hs : startsNumber signs c cs = true) (h : BeginsNumber (c :: ds)) :
    startsNumber signs c (ds ++ rest') = true := by
  obtain ⟨d, es, heq, hd⟩ := h
  obtain ⟨rfl, rfl⟩ := List.cons.inj heq
  simp only [startsNumber, Bool.or_eq_true, Bool.and_eq_true] at hs ⊢
  rcases hd with hd | ⟨rfl, hdigit⟩
  · exact .inl hd
  · rcases hs with hs | ⟨hs, -⟩
    · exact absurd hs (by decide)
    · refine .inr ⟨hs, ?_⟩
      cases ds with
      | nil => cases hdigit
      | cons d ds => exact hdigit

theorem ends_of_isBlank {d : Char} (h : isBlank d = true) : caret.ends d = true := by
  simp [Caret.ends, h]

/-- The same piece is cut off where the text after it is exchanged for a similar one. -/
theorem IsHead.of_resembles (h : IsHead caret signs c cs p) (hr : Resembles p.rest rest') :
    ∃ cs', p.dropped ++ (p.lexeme ++ rest') = c :: cs' ∧
      IsHead caret signs c cs' { p with rest := rest' } := by
  have hnumber {f : Literal.Format} {taken rest : List Char}
      (hstart : startsNumber signs c cs = true)
      (hs : Number.signed caret (c :: cs) = (f, taken, rest)) :
      ∃ ds, taken = c :: ds ∧ BeginsNumber (c :: cs) ∧ BeginsNumber (c :: ds) := by
    have hspells := (Number.spells_signed caret hstart).1.beginsNumber
    have htext := Number.signed_append caret (c :: cs)
    rw [hs] at hspells htext
    obtain ⟨d, ds, rfl, hd⟩ := hspells
    obtain ⟨rfl, rfl⟩ := List.cons.inj htext
    refine ⟨ds, rfl, ⟨d, _, rfl, hd.imp_right fun ⟨hm, hdigit⟩ => ⟨hm, ?_⟩⟩, d, ds, rfl, hd⟩
    cases ds with
    | nil => cases hdigit
    | cons e ds => exact hdigit
  cases h with
  | number hstart hs hends =>
    obtain ⟨ds, rfl, hc, hds⟩ := hnumber hstart hs
    exact ⟨ds ++ rest', rfl, .number (startsNumber_append hstart hds)
      (Number.signed_of_resembles hc hs hr)
      (hr.forall_head (fun _ hd => ends_of_isBlank hd) hends)⟩
  | @strayInNumber _ _ _ d hstart hs hd =>
    obtain ⟨ds, rfl, hc, hds⟩ := hnumber hstart hs
    exact ⟨ds ++ d :: rest', rfl, .strayInNumber (startsNumber_append hstart hds)
      (Number.signed_of_resembles hc hs (resembles_cons d _ _)) hd⟩
  | name hw htext hends =>
    obtain ⟨d, ds, rfl⟩ := List.exists_cons_of_ne_nil hw.1
    obtain ⟨rfl, rfl⟩ := List.cons.inj htext
    exact ⟨ds ++ rest', rfl, .name hw rfl
      (hr.forall_head (fun _ hd => ends_of_isBlank hd) hends)⟩
  | @strayInName _ _ e hw htext halpha hbracket hd =>
    obtain ⟨d, ds, rfl⟩ := List.exists_cons_of_ne_nil hw.1
    obtain ⟨rfl, rfl⟩ := List.cons.inj htext
    exact ⟨ds ++ e :: rest', rfl, .strayInName hw rfl halpha hbracket hd⟩
  | call hw htext =>
    obtain ⟨d, ds, rfl⟩ := List.exists_cons_of_ne_nil hw.1
    obtain ⟨rfl, rfl⟩ := List.cons.inj htext
    exact ⟨ds ++ '(' :: rest', by simp, .call hw rfl⟩
  | opening hc => exact ⟨rest', by rw [hc]; rfl, .opening hc⟩
  | closing hc => exact ⟨rest', by rw [hc]; rfl, .closing hc⟩
  | operator hstart hop =>
    exact ⟨rest', by rw [operator?_char hop]; rfl,
      .operator (startsNumber_of_resembles hstart hr) hop⟩
  | strayCharacter hstart halpha hopening hclosing hop =>
    exact ⟨rest', rfl, .strayCharacter (startsNumber_of_resembles hstart hr) halpha hopening
      hclosing hop⟩

end Piece

end Reckoner
