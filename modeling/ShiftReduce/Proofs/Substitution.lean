import Mathlib.Algebra.Order.BigOperators.Group.List
import Mathlib.Algebra.Order.Group.Nat
import Mathlib.Data.List.TakeWhile
import ShiftReduce.Proofs.Items
import ShiftReduce.Template

/-!
# Putting names in place of placeholders

Action code is cut into pieces by one scan from left to right (`Template.Scan`), and the pieces
write back to the text they were cut from. So naming the result `$$` and no place at all gives the
code back, and names can matter only where there are placeholders: the text that comes out depends
on the names of the used places, and on each of them (`resolve?_lossless`).

## The scan

`Scan` is a relation between code and pieces with one rule for each way in which the next piece is
found. There is exactly one list of pieces for any code (`scan_iff`), and it is the one that the
function cuts.

## Names that differ

That a name always shows in the text takes an argument, since a name may be empty, stand in several
places, or look like the text around it. If two names have one length, the texts can be compared
piece by piece. If their lengths differ, so do the lengths of the texts.
-/

namespace ShiftReduce.Template

/-! ## The scan -/

/-- How action code is cut into pieces from left to right. At a `$`, another one makes the
placeholder of the result; otherwise all digits that follow make the placeholder of a place, if
there are any. Every other character is a piece of its own. -/
inductive Scan : List Char → List Piece → Prop
  | done : Scan [] []
  | result {rest : List Char} {ps : List Piece} :
      Scan rest ps → Scan ('$' :: '$' :: rest) (.result :: ps)
  | value {digits rest : List Char} {ps : List Piece} :
      digits ≠ [] → (∀ c ∈ digits, c.isDigit = true) → (∀ c ∈ rest.head?, c.isDigit = false) →
      Scan rest ps → Scan ('$' :: (digits ++ rest)) (.value (place digits) digits :: ps)
  | char {c : Char} {rest : List Char} {ps : List Piece} :
      (c = '$' → ∀ d ∈ rest.head?, d ≠ '$' ∧ d.isDigit = false) →
      Scan rest ps → Scan (c :: rest) (.char c :: ps)

section Scan

variable {code rest digits : List Char} {ps : List Piece} {c : Char}

theorem takeWhile_eq_nil {p : Char → Bool} :
    rest.takeWhile p = [] ↔ ∀ d ∈ rest.head?, p d = false := by
  cases rest with
  | nil => simp
  | cons d rest => cases h : p d <;> simp [h]

theorem pieces_result : pieces ('$' :: '$' :: rest) = .result :: pieces rest := by
  rw [pieces]

theorem pieces_dollar (h : ∀ d ∈ rest.head?, d ≠ '$') : pieces ('$' :: rest) =
    if rest.takeWhile Char.isDigit = [] then .char '$' :: pieces rest
    else .value (place (rest.takeWhile Char.isDigit)) (rest.takeWhile Char.isDigit)
      :: pieces (rest.dropWhile Char.isDigit) := by
  rw [pieces]
  rintro rest' rfl
  exact h '$' rfl rfl

theorem pieces_char (h : c ≠ '$') : pieces (c :: rest) = .char c :: pieces rest := by
  rw [pieces]
  · rintro rest' rfl
    exact absurd rfl h
  · exact h

theorem scan_pieces (code : List Char) : Scan code (pieces code) := by
  induction code using pieces.induct with
  | case1 =>
    rw [pieces]
    exact Scan.done
  | case2 rest ih =>
    rw [pieces_result]
    exact Scan.result ih
  | case3 rest hsecond digits hnone ih =>
    have hhead : ∀ d ∈ rest.head?, d ≠ '$' := by
      rintro d hd rfl
      exact hsecond _ (List.eq_cons_of_mem_head? hd)
    rw [pieces_dollar hhead, if_pos hnone]
    exact Scan.char (fun _ d hd ↦ ⟨hhead d hd, takeWhile_eq_nil.mp hnone d hd⟩) ih
  | case4 rest hsecond digits hsome ih =>
    have hhead : ∀ d ∈ rest.head?, d ≠ '$' := by
      rintro d hd rfl
      exact hsecond _ (List.eq_cons_of_mem_head? hd)
    have hstop : ∀ d ∈ (rest.dropWhile Char.isDigit).head?, d.isDigit = false := by
      intro d hd
      have hnot := List.head?_dropWhile_not Char.isDigit rest
      rw [hd] at hnot
      exact hnot
    rw [pieces_dollar hhead, if_neg hsome]
    have hscan := Scan.value hsome (fun _ ↦ List.mem_takeWhile_imp) hstop ih
    rwa [List.takeWhile_append_dropWhile] at hscan
  | case5 c rest _ hc ih =>
    rw [pieces_char hc]
    exact Scan.char (fun heq ↦ absurd heq hc) ih

theorem Scan.eq_pieces (h : Scan code ps) : ps = pieces code := by
  induction h with
  | done => rw [pieces]
  | result _ ih => rw [pieces_result, ← ih]
  | @value digits rest ps hsome hdigits hstop _ ih =>
    have htake : (digits ++ rest).takeWhile Char.isDigit = digits := by
      rw [List.takeWhile_append_of_pos hdigits, takeWhile_eq_nil.mpr hstop, List.append_nil]
    have hdrop : (digits ++ rest).dropWhile Char.isDigit = rest := by
      have hsplit := List.takeWhile_append_dropWhile (p := Char.isDigit) (l := digits ++ rest)
      rw [htake] at hsplit
      exact List.append_cancel_left hsplit
    have hhead : ∀ d ∈ (digits ++ rest).head?, d ≠ '$' := by
      rintro d hd rfl
      rw [List.head?_append_of_ne_nil _ hsome] at hd
      simpa using hdigits '$' (List.mem_of_mem_head? hd)
    rw [pieces_dollar hhead, htake, if_neg hsome, hdrop, ← ih]
  | @char c rest ps hchar _ ih =>
    by_cases hc : c = '$'
    · subst hc
      have hnone : rest.takeWhile Char.isDigit = [] :=
        takeWhile_eq_nil.mpr fun d hd ↦ (hchar rfl d hd).2
      rw [pieces_dollar fun d hd ↦ (hchar rfl d hd).1, if_pos hnone, ← ih]
    · rw [pieces_char hc, ← ih]

/-- Action code is scanned in one way. -/
theorem scan_iff : Scan code ps ↔ ps = pieces code :=
  ⟨Scan.eq_pieces, fun h ↦ h ▸ scan_pieces code⟩

/-- A scan loses nothing of the code. -/
theorem Scan.flatMap_source (h : Scan code ps) : ps.flatMap Piece.source = code := by
  induction h with
  | done => rfl
  | result _ ih | value _ _ _ _ ih | char _ _ ih =>
    rw [List.flatMap_cons, ih]
    rfl

theorem Scan.exists_not_blank (h : Scan code ps) (hresult : .result ∈ ps) :
    ∃ c ∈ code, Text.isBlank c = false := by
  refine ⟨'$', ?_, by decide⟩
  rw [← h.flatMap_source]
  exact List.mem_flatMap.mpr ⟨.result, hresult, List.mem_cons_self⟩

end Scan

/-! ## What is written for a piece -/

section Names

variable {piece : Piece} {result : String} {names names' : List (Option String)} {n p : Nat}

theorem nameAt?_eq_of_le (hp : 1 ≤ p) : nameAt? names p = (names[p - 1]?).join := by
  rw [nameAt?, if_neg (Nat.one_le_iff_ne_zero.mp hp)]

theorem nameAt?_eq_none (hlength : names.length = n) (hp : ¬(1 ≤ p ∧ p ≤ n)) :
    nameAt? names p = none := by
  rw [nameAt?]
  split
  · rfl
  · rw [List.getElem?_eq_none (by omega), Option.join_none]

private theorem write_of_unnamed (piece : Piece) (n : Nat) :
    piece.write "$$" (List.replicate n none) = piece.source := by
  cases piece with
  | char | result => rfl
  | value p digits =>
    have hnone : nameAt? (List.replicate n none) p = none := by
      rw [nameAt?]
      split
      · rfl
      · rw [List.getElem?_replicate]
        split <;> rfl
    rw [Piece.write, hnone]
    rfl

theorem write_congr (hlength : names.length = n) (hlength' : names'.length = n)
    (h : ∀ p digits, piece = .value p digits → 1 ≤ p → p ≤ n → names[p - 1]? = names'[p - 1]?) :
    piece.write result names = piece.write result names' := by
  cases piece with
  | char | result => rfl
  | value p digits =>
    have hname : nameAt? names p = nameAt? names' p := by
      by_cases hp : 1 ≤ p ∧ p ≤ n
      · rw [nameAt?_eq_of_le hp.1, nameAt?_eq_of_le hp.1, h p digits rfl hp.1 hp.2]
      · rw [nameAt?_eq_none hlength hp, nameAt?_eq_none hlength' hp]
    rw [Piece.write, Piece.write, hname]

theorem write_of_named {digits : List Char} {name : String} (hp : 1 ≤ p)
    (hname : names[p - 1]? = some (some name)) :
    (Piece.value p digits).write result names = name.toList := by
  rw [Piece.write, nameAt?_eq_of_le hp, hname]
  rfl

end Names

/-! ## Texts that differ -/

section FlatMap

variable {α β : Type} {l : List α} {f g : α → List β}

private theorem forall_eq_of_flatMap_eq (hlength : ∀ x ∈ l, (f x).length = (g x).length)
    (h : l.flatMap f = l.flatMap g) : ∀ x ∈ l, f x = g x := by
  induction l with
  | nil => simp
  | cons x l ih =>
    rw [List.forall_mem_cons] at hlength ⊢
    rw [List.flatMap_cons, List.flatMap_cons] at h
    obtain ⟨hfirst, hrest⟩ := List.append_inj h hlength.1
    exact ⟨hfirst, ih hlength.2 hrest⟩

variable {a b : List β}

theorem length_flatMap_lt_of_replaced (hlt : a.length < b.length)
    (h : ∀ x ∈ l, f x = g x ∨ f x = a ∧ g x = b) (hsome : ∃ x ∈ l, f x = a ∧ g x = b) :
    (l.flatMap f).length < (l.flatMap g).length := by
  obtain ⟨y, hy, hfy, hgy⟩ := hsome
  rw [List.length_flatMap, List.length_flatMap]
  refine List.sum_lt_sum _ _ (fun x hx ↦ ?_) ⟨y, hy, by rwa [hfy, hgy]⟩
  rcases h x hx with hsame | ⟨hf, hg⟩
  · rw [hsame]
  · rw [hf, hg]
    exact hlt.le

/-- Where one of two different parts is put in for the other throughout, the whole differs. -/
theorem flatMap_ne_of_replaced (hne : a ≠ b) (h : ∀ x ∈ l, f x = g x ∨ f x = a ∧ g x = b)
    (hsome : ∃ x ∈ l, f x = a ∧ g x = b) : l.flatMap f ≠ l.flatMap g := by
  intro heq
  rcases lt_trichotomy a.length b.length with hlt | hlength | hlt
  · exact (length_flatMap_lt_of_replaced hlt h hsome).ne (congrArg List.length heq)
  · have hlengths : ∀ x ∈ l, (f x).length = (g x).length := by
      intro x hx
      rcases h x hx with hsame | ⟨hf, hg⟩
      · rw [hsame]
      · rw [hf, hg, hlength]
    obtain ⟨y, hy, hfy, hgy⟩ := hsome
    have hparts := forall_eq_of_flatMap_eq hlengths heq y hy
    exact hne (by rw [← hfy, ← hgy, hparts])
  · have hback : ∀ x ∈ l, g x = f x ∨ g x = b ∧ f x = a :=
      fun x hx ↦ (h x hx).imp Eq.symm And.symm
    obtain ⟨y, hy, hfy, hgy⟩ := hsome
    have hlonger := length_flatMap_lt_of_replaced hlt hback ⟨y, hy, hgy, hfy⟩
    exact hlonger.ne (congrArg List.length heq.symm)

end FlatMap

/-! ## Resolving -/

theorem mem_usedPlaces {code : String} {n i : Nat} : i ∈ usedPlaces code n ↔
    (∃ digits, Piece.value i digits ∈ pieces code.toList) ∧ 1 ≤ i ∧ i ≤ n := by
  have htotal : ∀ a b : Nat, ¬decide (a < b) = true → ¬decide (b < a) = true → a = b := by
    intro a b hab hba
    rw [decide_eq_true_iff] at hab hba
    omega
  rw [usedPlaces, Ascending.mem_ofList htotal, List.mem_filterMap]
  constructor
  · rintro ⟨piece, hpiece, hplace⟩
    cases piece with
    | char | result => simp [Piece.place?] at hplace
    | value j digits =>
      rw [Piece.place?] at hplace
      split at hplace
      · rename_i hle
        obtain rfl := Option.some.inj hplace
        exact ⟨⟨digits, hpiece⟩, hle⟩
      · simp at hplace
  · rintro ⟨⟨digits, hpiece⟩, hle⟩
    exact ⟨_, hpiece, by rw [Piece.place?, if_pos hle]⟩

section Resolve

variable {code result : String} {names names' : List (Option String)} {n p : Nat}

private theorem resolve?_eq_none_iff : resolve? code result names = none ↔
    (∃ c ∈ code.toList, Text.isBlank c = false) ∧ .result ∉ pieces code.toList := by
  have hblank : code.toList.all Text.isBlank = true ↔
      ¬∃ c ∈ code.toList, Text.isBlank c = false := by
    simp [List.all_eq_true]
  rw [resolve?]
  split_ifs with hall hresult
  · simp [hblank.mp hall]
  · simp [hresult]
  · simpa [hresult] using mt hblank.mpr hall

theorem resolve?_eq_some (h : .result ∈ pieces code.toList) : resolve? code result names =
    some (String.ofList ((pieces code.toList).flatMap (Piece.write result names))) := by
  obtain ⟨c, hc, hnot⟩ := (scan_pieces code.toList).exists_not_blank h
  have hblank : ¬code.toList.all Text.isBlank = true := by
    intro hall
    rw [List.all_eq_true.mp hall c hc] at hnot
    simp at hnot
  rw [resolve?, if_neg hblank, if_pos h]

private theorem resolve?_unnamed (h : .result ∈ pieces code.toList) (n : Nat) :
    resolve? code "$$" (List.replicate n none) = some code := by
  rw [resolve?_eq_some h, List.flatMap_congr fun piece _ ↦ write_of_unnamed piece n,
    (scan_pieces _).flatMap_source, String.ofList_toList]

/-- Names that agree at the used places make the same text. -/
theorem resolve?_congr (hlength : names.length = n) (hlength' : names'.length = n)
    (h : ∀ p ∈ usedPlaces code n, names[p - 1]? = names'[p - 1]?) :
    resolve? code result names = resolve? code result names' := by
  have hwrite : ∀ piece ∈ pieces code.toList,
      piece.write result names = piece.write result names' := by
    intro piece hpiece
    refine write_congr hlength hlength' fun p digits heq hpos hle ↦ ?_
    exact h p (mem_usedPlaces.mpr ⟨⟨digits, heq ▸ hpiece⟩, hpos, hle⟩)
  rw [resolve?, resolve?, List.flatMap_congr hwrite]

/-- Two names for one used place make different texts. -/
theorem resolve?_ne (h : .result ∈ pieces code.toList) (hlength : names.length = n)
    (hlength' : names'.length = n) {x y : String} (hp : p ∈ usedPlaces code n)
    (hx : names[p - 1]? = some (some x)) (hy : names'[p - 1]? = some (some y)) (hne : x ≠ y)
    (hothers : ∀ q, 1 ≤ q → q ≠ p → names[q - 1]? = names'[q - 1]?) :
    resolve? code result names ≠ resolve? code result names' := by
  obtain ⟨⟨digits, hpiece⟩, hpos, -⟩ := mem_usedPlaces.mp hp
  have hreplaced : ∀ piece ∈ pieces code.toList,
      piece.write result names = piece.write result names' ∨
        piece.write result names = x.toList ∧ piece.write result names' = y.toList := by
    intro piece _
    by_cases hplace : ∃ digits, piece = .value p digits
    · obtain ⟨digits, rfl⟩ := hplace
      exact Or.inr ⟨write_of_named hpos hx, write_of_named hpos hy⟩
    · refine Or.inl (write_congr hlength hlength' fun q digits heq hpos _ ↦ hothers q hpos ?_)
      rintro rfl
      exact hplace ⟨digits, heq⟩
  have htexts := flatMap_ne_of_replaced (mt String.toList_inj.mp hne) hreplaced
    ⟨_, hpiece, write_of_named hpos hx, write_of_named hpos hy⟩
  rw [resolve?_eq_some h, resolve?_eq_some h]
  exact fun heq ↦ htexts (String.ofList_injective (Option.some.inj heq))

/-- **Substitution is lossless and reads just the used places.** Let `ps` be the pieces that the
scan of some code meets. The code is refused if it is not blank and the result is not among them. If
the result is among them, then naming it `$$` and naming no place gives the code back; lists of
names that agree at the used places make the same text; and lists that differ at one place only, by
two names, make different texts if and only if that place is used. -/
theorem resolve?_lossless {ps : List Piece} (hscan : Scan code.toList ps) :
    (∀ result names, resolve? code result names = none ↔
      (∃ c ∈ code.toList, Text.isBlank c = false) ∧ .result ∉ ps) ∧
    (.result ∈ ps → ∀ n, resolve? code "$$" (List.replicate n none) = some code ∧
      ∀ result names names', names.length = n → names'.length = n →
        ((∀ p ∈ usedPlaces code n, names[p - 1]? = names'[p - 1]?) →
          resolve? code result names = resolve? code result names') ∧
        ∀ p x y, 1 ≤ p → names[p - 1]? = some (some x) → names'[p - 1]? = some (some y) → x ≠ y →
          (∀ q, 1 ≤ q → q ≠ p → names[q - 1]? = names'[q - 1]?) →
          (resolve? code result names ≠ resolve? code result names' ↔ p ∈ usedPlaces code n)) := by
  obtain rfl := hscan.eq_pieces
  refine ⟨fun result names ↦ resolve?_eq_none_iff, fun hresult n ↦ ⟨resolve?_unnamed hresult n, ?_⟩⟩
  intro result names names' hlength hlength'
  refine ⟨resolve?_congr hlength hlength', fun p x y hp hx hy hne hothers ↦ ⟨?_, ?_⟩⟩
  · contrapose!
    intro hunused
    refine resolve?_congr hlength hlength' fun q hq ↦ ?_
    have hpos := (mem_usedPlaces.mp hq).2.1
    exact hothers q hpos fun heq ↦ hunused (heq ▸ hq)
  · intro hused
    exact resolve?_ne hresult hlength hlength' hused hx hy hne hothers

end Resolve

/-- Code with a `$` that starts nothing, one in front of a placeholder, and places written in
several ways. -/
def strayDollars : String := "$$ = é$1 $$$02 $x$"

def strayPieces : List Piece :=
  [.result, .char ' ', .char '=', .char ' ', .char 'é', .value 1 ['1'], .char ' ', .result,
    .value 2 ['0', '2'], .char ' ', .char '$', .char 'x', .char '$']

theorem resolve?_lossless_strayDollars :
    Scan strayDollars.toList strayPieces ∧
    resolve? strayDollars "$$" [none, none] = some strayDollars ∧
    resolve? strayDollars "v" [some "a", some ""] = some "v = éa v $x$" ∧
    resolve? strayDollars "v" [some "a", some ""]
      ≠ resolve? strayDollars "v" [some "a", some "aa"] := by
  have hscan : Scan strayDollars.toList strayPieces := scan_iff.mpr (by decide +kernel)
  obtain ⟨-, hset⟩ := resolve?_lossless hscan
  obtain ⟨hback, hnames⟩ := hset (by decide) 2
  obtain ⟨-, hdiffer⟩ := hnames "v" [some "a", some ""] [some "a", some "aa"] rfl rfl
  refine ⟨hscan, hback, by decide +kernel, ?_⟩
  refine (hdiffer 2 "" "aa" (by decide) rfl rfl (by decide) fun q hpos hq ↦ ?_).mpr
    (by decide +kernel)
  match q with
  | 0 | 2 => omega
  | 1 | _ + 3 => rfl

end ShiftReduce.Template
