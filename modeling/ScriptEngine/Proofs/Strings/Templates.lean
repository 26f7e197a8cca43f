import ScriptEngine.Proofs.Strings.Leftmost
import ScriptEngine.Proofs.Strings.Occurrences

/-!
# Templates

A template is filled by a loop over the offsets of its placeholders. The loop knows how far it has
come by the offset behind the last placeholder, and takes what is between two placeholders as a cut
of the template.

* *placeholders*: a placeholder at a character ends with the digits behind it, so that there is one at
  most. Read from the end of the template on, the offsets are those of the leftmost placeholders
  (`exists_leftmost_findPlaceholders`);
* *filling*: while the template is `front` followed by occurrences and a rest, and the loop is at the
  offset behind `front`, each cut is a gap, the digits or the whole of the next placeholder
  (`fillFrom_cons`). So the loop gives the gaps with the texts between them (`fillFrom_of_selects`), or
  fails at the first placeholder that asks for no argument (`fillFrom_of_not_selects`). No cut is inside
  of a character, as each of them is at an end of one of these parts.
-/

namespace ScriptEngine.Text

variable {ds ds' cs last : List Char} {os : List Occurrence} {α β : Type}

/-! ## Placeholders -/

def braced (ds : List Char) : List Char :=
  '\x7b' :: ds ++ ['\x7d']

/-- The placeholders: digits in braces, which may be those of any script. -/
def placeholders : Language Char :=
  {w | ∃ ds, ds ≠ [] ∧ (∀ d ∈ ds, isDecimalDigit d = true) ∧ w = braced ds}

theorem nil_notMem_placeholders : [] ∉ placeholders := by
  rintro ⟨ds, -, -, h⟩
  cases h

theorem braced_append (ds cs : List Char) : braced ds ++ cs = '\x7b' :: (ds ++ '\x7d' :: cs) := by
  simp [braced]

theorem takeWhile_digits (hds : ∀ d ∈ ds, isDecimalDigit d = true) (cs : List Char) :
    (ds ++ '\x7d' :: cs).takeWhile isDecimalDigit = ds := by
  have hbrace : isDecimalDigit '\x7d' = false := by decide +kernel
  rw [List.takeWhile_append_of_pos hds, List.takeWhile_cons_of_neg (by simp [hbrace]),
    List.append_nil]

theorem prefixFree_placeholders : PrefixFree placeholders := by
  rintro _ ⟨ds, -, hds, rfl⟩ _ ⟨ds', -, hds', rfl⟩ s t h
  rw [braced_append, braced_append] at h
  have hdigits := congrArg (List.takeWhile isDecimalDigit) (List.cons.inj h).2
  rw [takeWhile_digits hds, takeWhile_digits hds'] at hdigits
  rw [hdigits]

theorem placeholder?_eq_some : placeholder? cs = some ds ↔
    ds ≠ [] ∧ (∀ d ∈ ds, isDecimalDigit d = true) ∧ ∃ rest, cs = ds ++ '\x7d' :: rest := by
  constructor
  · intro h
    have hsplit := List.prefix_iff_eq_append.1 (List.takeWhile_prefix isDecimalDigit (l := cs))
    have hdigits : ∀ d ∈ cs.takeWhile isDecimalDigit, isDecimalDigit d = true :=
      fun d hd => List.all_eq_true.1 List.all_takeWhile d hd
    unfold placeholder? at h
    dsimp only at h
    split at h
    next d ds' rest hne hbehind =>
      obtain rfl := Option.some.inj h
      refine ⟨by simp [hne], hdigits, rest, ?_⟩
      rw [← hbehind, hsplit]
    next => cases h
  · rintro ⟨hne, hds, rest, rfl⟩
    unfold placeholder?
    rw [takeWhile_digits hds]
    dsimp only
    rw [List.drop_left]
    cases ds with
    | nil => exact absurd rfl hne
    | cons d ds => rfl

/-- The digits of a placeholder. -/
def digitsOf (w : List Char) : List Char :=
  w.tail.dropLast

@[simp]
theorem digitsOf_braced (ds : List Char) : digitsOf (braced ds) = ds := by
  simp [digitsOf, braced]

/-- The offsets of placeholders in a text whose first byte is at `offset`. -/
def placed (offset : ℕ) : List Occurrence → List Placeholder
  | [] => []
  | o :: os =>
    let start := offset + byteSize o.gap
    let stop := start + byteSize o.word
    { start, stop, digitsStart := start + 1, digitsStop := stop - 1 } :: placed stop os

theorem placed_push (offset : ℕ) (c : Char) (os : List Occurrence) :
    placed offset (pushGap c os) = placed (offset + c.utf8Size) os := by
  cases os with
  | nil => rfl
  | cons o os => simp only [pushGap, placed, byteSize_cons, Nat.add_assoc]

theorem byteSize_braced (ds : List Char) : byteSize (braced ds) = byteSize ds + 2 := by
  have hopen : '\x7b'.utf8Size = 1 := rfl
  have hclose : byteSize ['\x7d'] = 1 := rfl
  rw [braced, List.cons_append, byteSize_cons, byteSize_append, hopen, hclose]
  omega

/-- A placeholder that a text starts with is found. -/
theorem placeholder?_of_prefix {c : Char} {w : List Char} (hw : w ∈ placeholders)
    (h : w <+: c :: cs) : ∃ ds, (if c = '\x7b' then placeholder? cs else none) = some ds := by
  obtain ⟨ds, hne, hds, rfl⟩ := hw
  obtain ⟨rest, hrest⟩ := h
  rw [braced_append] at hrest
  obtain ⟨rfl, hcs⟩ := List.cons.inj hrest
  exact ⟨ds, (if_pos rfl).trans (placeholder?_eq_some.2 ⟨hne, hds, rest, hcs.symm⟩)⟩

/-- The offsets are those of the leftmost placeholders in the text behind the skipped characters. -/
theorem exists_leftmost_findPlaceholders (offset skip : ℕ) (cs : List Char) :
    ∃ os last, Leftmost placeholders (cs.drop skip) os last ∧
      findPlaceholders offset skip cs = placed (offset + byteSize (cs.take skip)) os := by
  fun_induction findPlaceholders offset skip cs with
  | case1 offset skip =>
    refine ⟨[], [], ?_, rfl⟩
    rw [List.drop_nil]
    refine .stop fun w hw hinfix => nil_notMem_placeholders ?_
    rwa [← List.infix_nil.1 hinfix]
  | case2 offset c cs behind skip ih =>
    obtain ⟨os, last, hleft, hplaces⟩ := ih
    refine ⟨os, last, hleft, ?_⟩
    rw [hplaces, List.take_succ_cons, byteSize_cons, ← Nat.add_assoc]
  | case3 offset c cs behind ds hstart digitsStop ih =>
    obtain ⟨os, last, hleft, hplaces⟩ := ih
    obtain ⟨rfl, hplace⟩ : c = '\x7b' ∧ placeholder? cs = some ds := by
      split_ifs at hstart with hc
      exact ⟨hc, hstart⟩
    obtain ⟨hne, hds, rest, rfl⟩ := placeholder?_eq_some.1 hplace
    have hrest : (ds ++ '\x7d' :: rest).drop (ds.length + 1) = rest := by simp
    have htaken : (ds ++ '\x7d' :: rest).take (ds.length + 1) = ds ++ ['\x7d'] := by
      rw [List.take_length_add_append]
      rfl
    have hword : braced ds ∈ placeholders := ⟨ds, hne, hds, rfl⟩
    have hopen : '\x7b'.utf8Size = 1 := rfl
    have hclose : byteSize ['\x7d'] = 1 := rfl
    rw [hrest] at hleft
    refine ⟨⟨[], braced ds⟩ :: os, last, ?_, ?_⟩
    · rw [List.drop_zero, ← braced_append]
      exact hleft.here hword
    · rw [hplaces, htaken, byteSize_append, hclose, List.take_zero, byteSize_nil, Nat.add_zero, placed]
      dsimp only [behind, digitsStop]
      rw [byteSize_nil, byteSize_braced, hopen]
      congr 2 <;> omega
  | case4 offset c cs behind hstart ih =>
    obtain ⟨os, last, hleft, hplaces⟩ := ih
    refine ⟨pushGap c os, pushLast c last os, hleft.push fun w hw hprefix => ?_, ?_⟩
    · obtain ⟨ds, hds⟩ := placeholder?_of_prefix hw hprefix
      rw [hstart] at hds
      cases hds
    · rw [hplaces, List.take_zero, List.take_zero, byteSize_nil, placed_push]
      rfl

theorem Leftmost.findPlaceholders_eq (h : Leftmost placeholders cs os last) :
    findPlaceholders 0 0 cs = placed 0 os := by
  obtain ⟨os', last', hleft, hplaces⟩ := exists_leftmost_findPlaceholders 0 0 cs
  obtain ⟨rfl, rfl⟩ := h.unique prefixFree_placeholders hleft
  exact hplaces

/-! ## Arguments -/

/-- The item that a placeholder asks for: its digits are ASCII digits, they write a number that 64
bits can hold in base ten, and this is the index of the item. -/
def Selects (args : Array α) (w : List Char) (a : α) : Prop :=
  ∃ ds, w = braced ds ∧ (∀ d ∈ ds, d.isDigit = true) ∧
    let i := Nat.ofDigits 10 (ds.reverse.map fun d => d.toNat - '0'.toNat)
    i < 2 ^ 64 ∧ args[i]? = some a

theorem digitsValue_eq (ds : List Char) :
    digitsValue ds = Nat.ofDigits 10 (ds.reverse.map fun d => d.toNat - '0'.toNat) := by
  induction ds using List.reverseRecOn with
  | nil => rfl
  | append_singleton ds d ih =>
    have hlast : digitsValue (ds ++ [d]) = 10 * digitsValue ds + (d.toNat - '0'.toNat) := by
      simp [digitsValue]
    rw [hlast, ih, List.reverse_append, List.reverse_singleton, List.singleton_append,
      List.map_cons, Nat.ofDigits_cons]
    exact Nat.add_comm _ _

theorem selects_braced {args : Array α} {a : α} : Selects args (braced ds) a ↔
    (placeholderIndex? ds).bind (args[·]?) = some a := by
  have hinj : ∀ ds', braced ds = braced ds' → ds = ds' := fun ds' h => by
    rw [← digitsOf_braced ds, h, digitsOf_braced]
  unfold placeholderIndex?
  rw [digitsValue_eq]
  constructor
  · rintro ⟨ds', h, hds, hi, ha⟩
    obtain rfl := hinj ds' h
    rw [if_pos ⟨List.all_eq_true.2 hds, hi⟩]
    exact ha
  · intro h
    split_ifs at h with hds
    · exact ⟨ds, rfl, List.all_eq_true.1 hds.1, hds.2, h⟩
    · cases h

/-- What placeholders ask for among images are the images of what they ask for. -/
theorem selects_map {f : α → β} {args : Array α} {w : List Char} {b : β} :
    Selects (args.map f) w b ↔ ∃ a, Selects args w a ∧ b = f a := by
  simp only [Selects, Array.getElem?_map, Option.map_eq_some_iff]
  constructor
  · rintro ⟨ds, hw, hds, hi, a, ha, rfl⟩
    exact ⟨a, ⟨ds, hw, hds, hi, ha⟩, rfl⟩
  · rintro ⟨a, ⟨ds, hw, hds, hi, ha⟩, rfl⟩
    exact ⟨ds, hw, hds, hi, a, ha, rfl⟩

/-- Every placeholder asks for an argument, or there is a first one that asks for none. -/
theorem selects_all_or_first (args : Array α) (os : List Occurrence) :
    (∃ vs, List.Forall₂ (fun o v => Selects args o.word v) os vs) ∨
      ∃ done o rest, os = done ++ o :: rest ∧ (∀ p ∈ done, ∃ v, Selects args p.word v) ∧
        ∀ v, ¬ Selects args o.word v := by
  induction os with
  | nil => exact .inl ⟨[], .nil⟩
  | cons o os ih =>
    by_cases ho : ∃ v, Selects args o.word v
    · obtain ⟨v, hv⟩ := ho
      rcases ih with ⟨vs, hvs⟩ | ⟨done, p, rest, rfl, hdone, hp⟩
      · exact .inl ⟨v :: vs, .cons hv hvs⟩
      · exact .inr ⟨o :: done, p, rest, rfl, List.forall_mem_cons.2 ⟨⟨v, hv⟩, hdone⟩, hp⟩
    · exact .inr ⟨[], o, os, rfl, nofun, not_exists.1 ho⟩

/-! ## Filling -/

variable {args : Array String} {template out : String} {front : List Char} {o : Occurrence}

/-- The loop at a placeholder: what it takes from the template are the digits of the placeholder, the
gap in front of it, and the whole of it in a fault. -/
theorem fillFrom_cons (hword : o.word = braced ds)
    (htemplate : template.toList = front ++ (o.gap ++ o.word ++ last)) :
    fillFrom template args out (byteSize front) (placed (byteSize front) (o :: os)) =
      match (placeholderIndex? ds).bind (args[·]?) with
      | none => .error (.formatArgument (String.ofList o.word))
      | some value => fillFrom template args (out ++ String.ofList o.gap ++ value)
          (byteSize (front ++ (o.gap ++ o.word))) (placed (byteSize (front ++ (o.gap ++ o.word))) os) := by
  have hopen : byteSize ['\x7b'] = 1 := rfl
  have hdigits : slice template (byteSize front + byteSize o.gap + 1)
      (byteSize front + byteSize o.gap + byteSize o.word - 1) = .ok (String.ofList ds) := by
    have hcut : template.toList = front ++ o.gap ++ ['\x7b'] ++ ds ++ '\x7d' :: last := by
      rw [htemplate, hword]
      simp [braced]
    have hslice := slice_append hcut
    have hstop : byteSize (front ++ o.gap ++ ['\x7b'] ++ ds) =
        byteSize front + byteSize o.gap + byteSize o.word - 1 := by
      simp only [byteSize_append, hword, byteSize_braced, hopen]
      omega
    rwa [hstop, byteSize_append, byteSize_append, hopen] at hslice
  have hwhole : slice template (byteSize front + byteSize o.gap)
      (byteSize front + byteSize o.gap + byteSize o.word) = .ok (String.ofList o.word) := by
    have hcut : template.toList = front ++ o.gap ++ o.word ++ last := by
      rw [htemplate]
      simp
    have hslice := slice_append hcut
    rwa [byteSize_append (front ++ o.gap), byteSize_append] at hslice
  have hgap : slice template (byteSize front) (byteSize front + byteSize o.gap) =
      .ok (String.ofList o.gap) := by
    have hcut : template.toList = front ++ o.gap ++ (o.word ++ last) := by
      rw [htemplate]
      simp
    have hslice := slice_append hcut
    rwa [byteSize_append] at hslice
  have hbehind : byteSize (front ++ (o.gap ++ o.word)) =
      byteSize front + byteSize o.gap + byteSize o.word := by
    rw [byteSize_append, byteSize_append, Nat.add_assoc]
  rw [placed, fillFrom]
  dsimp only
  rw [hdigits, ok_bind, String.toList_ofList]
  cases (placeholderIndex? ds).bind (args[·]?) with
  | none =>
    dsimp only
    rw [hwhole, ok_bind]
    rfl
  | some value =>
    dsimp only
    rw [hgap, ok_bind, hbehind]

/-- The loop behind the last placeholder takes the rest. -/
theorem fillFrom_nil (htemplate : template.toList = front ++ last) :
    fillFrom template args out (byteSize front) (placed (byteSize front) []) =
      .ok (out ++ String.ofList last) := by
  rw [placed, fillFrom, slice_rest htemplate, ok_bind]
  rfl

/-- The gaps of placeholders with texts in the places of the placeholders. -/
def filled (last : List Char) : List Occurrence → List String → List Char
  | o :: os, t :: ts => o.gap ++ t.toList ++ filled last os ts
  | _, _ => last

/-- Every placeholder asks for the text in its place. -/
theorem fillFrom_of_selects (hwords : ∀ o ∈ os, o.word ∈ placeholders) {ts : List String}
    (h : List.Forall₂ (fun o t => Selects args o.word t) os ts)
    (htemplate : template.toList = front ++ (spelled os ++ last)) :
    fillFrom template args out (byteSize front) (placed (byteSize front) os) =
      .ok (out ++ String.ofList (filled last os ts)) := by
  induction h generalizing front out with
  | nil => exact fillFrom_nil htemplate
  | @cons o t os ts hselects hrest ih =>
    obtain ⟨⟨ds, -, -, hds⟩, hwords⟩ := List.forall_mem_cons.1 hwords
    rw [hds] at hselects
    have hcut : template.toList = front ++ (o.gap ++ o.word ++ (spelled os ++ last)) := by
      rw [htemplate, spelled, List.flatMap_cons, List.append_assoc]
      rfl
    rw [fillFrom_cons hds hcut, selects_braced.1 hselects]
    dsimp only
    rw [ih hwords (by rw [hcut]; simp only [List.append_assoc])]
    simp only [filled, String.ofList_append, String.ofList_toList, String.append_assoc]

/-- The first placeholder that asks for nothing is a fault. -/
theorem fillFrom_of_not_selects (hwords : ∀ o ∈ os, o.word ∈ placeholders)
    {done rest : List Occurrence} (hos : os = done ++ o :: rest)
    (hdone : ∀ p ∈ done, ∃ t, Selects args p.word t) (ho : ∀ t, ¬ Selects args o.word t)
    (htemplate : template.toList = front ++ (spelled os ++ last)) :
    fillFrom template args out (byteSize front) (placed (byteSize front) os) =
      .error (.formatArgument (String.ofList o.word)) := by
  subst hos
  induction done generalizing front out with
  | nil =>
    obtain ⟨⟨ds, -, -, hds⟩, -⟩ := List.forall_mem_cons.1 hwords
    have hnone : (placeholderIndex? ds).bind (args[·]?) = none :=
      Option.eq_none_iff_forall_ne_some.2 fun t ht => ho t (hds ▸ selects_braced.2 ht)
    have hcut : template.toList = front ++ (o.gap ++ o.word ++ (spelled rest ++ last)) := by
      rw [htemplate, List.nil_append, spelled, List.flatMap_cons, List.append_assoc]
      rfl
    rw [List.nil_append, fillFrom_cons hds hcut, hnone]
  | cons p done ih =>
    obtain ⟨⟨ds, -, -, hds⟩, hwords⟩ := List.forall_mem_cons.1 hwords
    obtain ⟨⟨t, ht⟩, hdone⟩ := List.forall_mem_cons.1 hdone
    rw [hds] at ht
    have hcut : template.toList = front ++ (p.gap ++ p.word ++ (spelled (done ++ o :: rest) ++ last)) := by
      rw [htemplate, List.cons_append, spelled, List.flatMap_cons, List.append_assoc]
      rfl
    rw [List.cons_append, fillFrom_cons hds hcut, selects_braced.1 ht]
    exact ih hdone hwords (by rw [hcut]; simp only [List.append_assoc])

variable (args)

theorem format_of_selects (h : Leftmost placeholders template.toList os last) {ts : List String}
    (hts : List.Forall₂ (fun o t => Selects args o.word t) os ts) :
    format template args = .ok (String.ofList (filled last os ts)) := by
  rw [format, h.findPlaceholders_eq, ← String.empty_append (s := String.ofList _)]
  have htemplate : template.toList = [] ++ (spelled os ++ last) := h.restore.symm
  exact fillFrom_of_selects h.word_mem hts htemplate

theorem format_of_not_selects (h : Leftmost placeholders template.toList os last)
    {done rest : List Occurrence} (hos : os = done ++ o :: rest)
    (hdone : ∀ p ∈ done, ∃ t, Selects args p.word t) (ho : ∀ t, ¬ Selects args o.word t) :
    format template args = .error (.formatArgument (String.ofList o.word)) := by
  rw [format, h.findPlaceholders_eq]
  have htemplate : template.toList = [] ++ (spelled os ++ last) := h.restore.symm
  exact fillFrom_of_not_selects h.word_mem hos hdone ho htemplate

/-- The one fault of templates is a placeholder that asks for no argument. -/
theorem format_error {cause : RuntimeFault} (h : format template args = .error cause) :
    ∃ w, cause = .formatArgument w := by
  obtain ⟨os, last, hleft, -⟩ := exists_leftmost_findPlaceholders 0 0 template.toList
  rw [List.drop_zero] at hleft
  rcases selects_all_or_first args os with ⟨ts, hts⟩ | ⟨done, o, rest, hos, hdone, ho⟩
  · rw [format_of_selects args hleft hts] at h
    cases h
  · rw [format_of_not_selects args hleft hos hdone ho] at h
    exact ⟨_, (Except.error.inj h).symm⟩

end ScriptEngine.Text
