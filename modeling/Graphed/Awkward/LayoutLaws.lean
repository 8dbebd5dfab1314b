import Graphed.Awkward.Layouts

/-!
# Slices of layouts

The rows of a slice are the slice of the rows, and a slice of what a read leaves is what a read of
the slice leaves.
-/

namespace Graphed.Blocks

/-! ### Slices of lists -/

section Sub

variable {β γ : Type}

theorem length_sub (rows : List β) (start stop : Nat) :
    (sub rows (start, stop)).length = min stop rows.length - start := by
  unfold sub
  rw [List.length_drop, List.length_take]

theorem getElem?_sub (rows : List β) (start stop i : Nat) :
    (sub rows (start, stop))[i]? = if start + i < stop then rows[start + i]? else none := by
  unfold sub
  rw [List.getElem?_drop, List.getElem?_take]

theorem getD_sub (rows : List β) {start stop i : Nat} (h : start + i < stop) (b : β) :
    (sub rows (start, stop)).getD i b = rows.getD (start + i) b := by
  rw [List.getD_eq_getElem?_getD, List.getD_eq_getElem?_getD, getElem?_sub, if_pos h]

theorem sub_map (f : β → γ) (rows : List β) (span : Nat × Nat) :
    sub (rows.map f) span = (sub rows span).map f := by
  unfold sub
  rw [← List.map_take, ← List.map_drop]

theorem sub_zip (xs : List β) (ys : List γ) (span : Nat × Nat) :
    sub (xs.zip ys) span = (sub xs span).zip (sub ys span) := by
  unfold sub List.zip
  rw [List.take_zipWith, List.drop_zipWith]

theorem sub_replicate (n start stop : Nat) (b : β) :
    sub (List.replicate n b) (start, stop) = List.replicate (min stop n - start) b := by
  unfold sub
  rw [List.take_replicate, List.drop_replicate]

theorem mem_of_mem_sub {rows : List β} {span : Nat × Nat} {b : β} (h : b ∈ sub rows span) :
    b ∈ rows :=
  List.mem_of_mem_take (List.mem_of_mem_drop h)

theorem sub_sub (rows : List β) {start stop : Nat} (span : Nat × Nat)
    (h : start + span.2 ≤ stop) :
    sub (sub rows (start, stop)) span = sub rows (start + span.1, start + span.2) := by
  unfold sub
  rw [List.take_drop, List.drop_drop, List.take_take, Nat.min_eq_left h]

theorem sub_all {rows : List β} : sub rows (0, rows.length) = rows := by simp [sub]

end Sub

/-! ### Slices of buffers -/

namespace Buffer

variable {β : Type} {b whole : Buffer β} {start stop : Nat}

theorem length_items (h : b.isRead = true) : b.items.length = b.length := by
  cases b with
  | read items => rfl
  | placeholder n => cases h

theorem length_slice (b : Buffer β) (start stop : Nat) :
    (b.slice start stop).length = min stop b.length - start := by
  cases b with
  | read items => exact length_sub items start stop
  | placeholder n => rfl

theorem isRead_slice (b : Buffer β) (start stop : Nat) :
    (b.slice start stop).isRead = b.isRead := by
  cases b <;> rfl

theorem items_slice (b : Buffer β) (start stop : Nat) :
    (b.slice start stop).items = sub b.items (start, stop) := by
  cases b with
  | read items => rfl
  | placeholder n => simp [slice, items, sub]

theorem Leaves.slice (h : b.Leaves whole) (start stop : Nat) :
    (b.slice start stop).Leaves (whole.slice start stop) := by
  refine ⟨?_, fun hread => ?_⟩
  · rw [length_slice, length_slice, h.1]
  · rw [isRead_slice] at hread
    rw [h.2 hread]

end Buffer

/-! ### Slices of layouts -/

variable {α : Type}

namespace Layout

variable {start stop : Nat}

/-- How many rows a slice has. -/
theorem length_slice (f : Form) {p : Layout α f} (hvalid : p.Valid f) (hle : start ≤ stop)
    (hstop : stop ≤ p.length f) : (p.slice start stop f).length f = stop - start := by
  induction f generalizing start stop with
  | numpy =>
      change (p.data.slice start stop).length = _
      change stop ≤ p.data.length at hstop
      rw [p.data.length_slice]
      omega
  | record n names fields _ =>
      change min stop p.len - start = _
      change stop ≤ p.len at hstop
      omega
  | listOffset content _ =>
      change (p.offsets.slice start (stop + 1)).length - 1 = _
      change stop ≤ p.offsets.length - 1 at hstop
      obtain ⟨hread, hne, -⟩ := hvalid
      have hpos := List.length_pos_iff.mpr hne
      rw [p.offsets.length_items hread] at hpos
      rw [p.offsets.length_slice]
      omega
  | list content _ =>
      change (p.starts.slice start stop).length = _
      change stop ≤ p.starts.length at hstop
      rw [p.starts.length_slice]
      omega
  | regular size content ih =>
      change stop ≤ if size = 0 then p.zerosLength else length content p.content / size at hstop
      change (if size = 0 then min stop p.zerosLength - start
        else length content (slice (start * size) (stop * size) content p.content) / size) = _
      by_cases hsize : size = 0
      · rw [if_pos hsize] at hstop ⊢
        omega
      · rw [if_neg hsize] at hstop ⊢
        have hpos : 0 < size := Nat.pos_of_ne_zero hsize
        have hcontent : stop * size ≤ length content p.content :=
          (Nat.mul_le_mul_right size hstop).trans (Nat.div_mul_le_self _ _)
        rw [ih hvalid (Nat.mul_le_mul_right size hle) hcontent, ← Nat.sub_mul,
          Nat.mul_div_cancel _ hpos]
  | byteMasked validWhen content _ =>
      change (p.mask.slice start stop).length = _
      change stop ≤ p.mask.length at hstop
      rw [p.mask.length_slice]
      omega
  | bitMasked validWhen content _ =>
      change min stop p.len - start = _
      change stop ≤ p.len at hstop
      omega
  | unmasked content ih => exact ih hvalid hle hstop
  | indexed option content _ =>
      change (p.index.slice start stop).length = _
      change stop ≤ p.index.length at hstop
      rw [p.index.length_slice]
      omega
  | union n contents _ =>
      change (p.tags.slice start stop).length = _
      change stop ≤ p.tags.length at hstop
      rw [p.tags.length_slice]
      omega

theorem valid_slice (f : Form) {p : Layout α f} (hvalid : p.Valid f) (hle : start ≤ stop)
    (hstop : stop ≤ p.length f) : (p.slice start stop f).Valid f := by
  induction f generalizing start stop with
  | numpy =>
      change (p.data.slice start stop).isRead = true
      rw [p.data.isRead_slice]
      exact hvalid
  | record n names fields ih =>
      intro k
      change stop ≤ p.len at hstop
      have hfield : stop ≤ length (fields k) (p.contents k) := hstop.trans (hvalid k).2
      refine ⟨ih k (hvalid k).1 hle hfield, ?_⟩
      change min stop p.len - start ≤ length (fields k) (slice start stop (fields k) (p.contents k))
      rw [length_slice (fields k) (hvalid k).1 hle hfield]
      omega
  | listOffset content _ =>
      obtain ⟨hread, hne, hsorted, hbound, hcontent⟩ := hvalid
      change stop ≤ p.offsets.length - 1 at hstop
      have hpos := List.length_pos_iff.mpr hne
      have hlength := p.offsets.length_items hread
      have hitems := p.offsets.items_slice start (stop + 1)
      refine ⟨(p.offsets.isRead_slice _ _).trans hread, ?_, ?_, ?_, hcontent⟩
      · apply List.ne_nil_of_length_pos
        change 0 < (p.offsets.slice start (stop + 1)).items.length
        rw [hitems, length_sub]
        omega
      · change (p.offsets.slice start (stop + 1)).items.Pairwise _
        rw [hitems]
        exact hsorted.sublist ((List.drop_sublist _ _).trans (List.take_sublist _ _))
      · change ∀ o ∈ (p.offsets.slice start (stop + 1)).items, _
        rw [hitems]
        exact fun o ho => hbound o (mem_of_mem_sub ho)
  | list content _ =>
      obtain ⟨hstarts, hstops, hlength, hspans, hcontent⟩ := hvalid
      refine ⟨(p.starts.isRead_slice _ _).trans hstarts, (p.stops.isRead_slice _ _).trans hstops,
        ?_, ?_, hcontent⟩
      · change (p.starts.slice start stop).length ≤ (p.stops.slice start stop).length
        rw [p.starts.length_slice, p.stops.length_slice]
        omega
      · change ∀ span ∈ (p.starts.slice start stop).items.zip (p.stops.slice start stop).items, _
        rw [p.starts.items_slice, p.stops.items_slice, ← sub_zip]
        exact fun span hspan => hspans span (mem_of_mem_sub hspan)
  | regular size content ih =>
      change stop ≤ if size = 0 then p.zerosLength else length content p.content / size at hstop
      by_cases hsize : size = 0
      · subst hsize
        exact ih hvalid (by omega) (by omega)
      · rw [if_neg hsize] at hstop
        exact ih hvalid (Nat.mul_le_mul_right size hle)
          ((Nat.mul_le_mul_right size hstop).trans (Nat.div_mul_le_self _ _))
  | byteMasked validWhen content ih =>
      obtain ⟨hread, hlength, hcontent⟩ := hvalid
      change stop ≤ p.mask.length at hstop
      refine ⟨(p.mask.isRead_slice _ _).trans hread, ?_, ih hcontent hle (hstop.trans hlength)⟩
      change (p.mask.slice start stop).length ≤ length content (slice start stop content p.content)
      rw [p.mask.length_slice, length_slice content hcontent hle (hstop.trans hlength)]
      omega
  | bitMasked validWhen content ih =>
      obtain ⟨hread, hlength, hbits, hcontent⟩ := hvalid
      change stop ≤ p.len at hstop
      refine ⟨(p.mask.isRead_slice _ _).trans hread, ?_, ?_, ih hcontent hle (hstop.trans hbits)⟩
      · change min stop p.len - start ≤ (p.mask.slice start stop).length
        rw [p.mask.length_slice]
        omega
      · change min stop p.len - start ≤ length content (slice start stop content p.content)
        rw [length_slice content hcontent hle (hstop.trans hbits)]
        omega
  | unmasked content ih => exact ih hvalid hle hstop
  | indexed option content _ =>
      obtain ⟨hread, hindex, hcontent⟩ := hvalid
      refine ⟨(p.index.isRead_slice _ _).trans hread, ?_, hcontent⟩
      change ∀ i ∈ (p.index.slice start stop).items, _
      rw [p.index.items_slice]
      exact fun i hi => hindex i (mem_of_mem_sub hi)
  | union n contents _ =>
      obtain ⟨htags, hindex, hlength, hitems, hcontents⟩ := hvalid
      refine ⟨(p.tags.isRead_slice _ _).trans htags, (p.index.isRead_slice _ _).trans hindex,
        ?_, ?_, hcontents⟩
      · change (p.tags.slice start stop).length ≤ (p.index.slice start stop).length
        rw [p.tags.length_slice, p.index.length_slice]
        omega
      · change ∀ item ∈ (p.tags.slice start stop).items.zip (p.index.slice start stop).items, _
        rw [p.tags.items_slice, p.index.items_slice, ← sub_zip]
        exact fun item hitem => hitems item (mem_of_mem_sub hitem)

theorem length_lists (spans : List (Nat × Nat)) (rows : List (Val α)) :
    (lists spans rows).length = spans.length := List.length_map _

theorem length_recordRows (names : Option (List String)) {n : Nat} (rows : Fin n → List (Val α))
    (length : Nat) : (recordRows names rows length).length = length := by
  unfold recordRows
  rw [List.length_map, List.length_range]

theorem length_rows (f : Form) (s : Seen f) {p : Layout α f} (hvalid : p.Valid f) :
    (p.rows f s).length = p.length f := by
  have hplaceholder : ∀ n : Nat, (List.replicate n (Val.unread : Val α)).length = n := fun n =>
    List.length_replicate
  induction f with
  | numpy =>
      change (if s.1 = true then _ else _ : List (Val α)).length = p.data.length
      split
      · rw [List.length_map, p.data.length_items hvalid]
      · exact hplaceholder _
  | record n names fields _ => exact length_recordRows names _ _
  | listOffset content _ =>
      change (if s.1 = true then _ else _ : List (Val α)).length = p.offsets.length - 1
      split
      · rw [length_lists, List.length_zip, List.length_tail, p.offsets.length_items hvalid.1]
        omega
      · exact hplaceholder _
  | list content _ =>
      obtain ⟨hstarts, hstops, hlength, -⟩ := hvalid
      change (if s.1 = true then _ else _ : List (Val α)).length = p.starts.length
      split
      · rw [length_lists, List.length_zip, p.starts.length_items hstarts,
          p.stops.length_items hstops]
        omega
      · exact hplaceholder _
  | regular size content _ =>
      change (lists (regularSpans size _) _).length = _
      rw [length_lists, regularSpans, List.length_map, List.length_range]
  | byteMasked validWhen content _ =>
      change (if s.1 = true then _ else _ : List (Val α)).length = p.mask.length
      split
      · rw [List.length_map, maskIndex, List.length_mapIdx, p.mask.length_items hvalid.1]
      · exact hplaceholder _
  | bitMasked validWhen content _ =>
      obtain ⟨hread, hlength, -⟩ := hvalid
      change (if s.1 = true then _ else _ : List (Val α)).length = p.len
      split
      · rw [List.length_map, maskIndex, List.length_mapIdx, List.length_take,
          p.mask.length_items hread]
        omega
      · exact hplaceholder _
  | unmasked content ih => exact ih s hvalid
  | indexed option content _ =>
      change (if s.1 = true then _ else _ : List (Val α)).length = p.index.length
      split
      · rw [List.length_map, p.index.length_items hvalid.1]
      · exact hplaceholder _
  | union n contents _ =>
      obtain ⟨htags, hindex, hlength, -⟩ := hvalid
      change (if s.1 = true then _ else _ : List (Val α)).length = p.tags.length
      split
      · rw [List.length_map, List.length_zip, p.tags.length_items htags,
          p.index.length_items hindex]
        omega
      · exact hplaceholder _

/-! ### Rows of a slice -/

theorem recordRows_sub (names : Option (List String)) {n : Nat} (rows : Fin n → List (Val α))
    {len : Nat} (hstop : stop ≤ len) :
    recordRows names (fun k => sub (rows k) (start, stop)) (min stop len - start) =
      sub (recordRows names rows len) (start, stop) := by
  apply List.ext_getElem?
  intro i
  unfold recordRows
  rw [getElem?_sub, List.getElem?_map, List.getElem?_map]
  by_cases hi : start + i < stop
  · rw [if_pos hi, List.getElem?_range (by omega), List.getElem?_range (by omega)]
    simp only [Option.map_some, getD_sub _ hi]
  · rw [if_neg hi, List.getElem?_eq_none (by rw [List.length_range]; omega)]
    rfl

theorem zip_tail_sub (offsets : List Nat) :
    (sub offsets (start, stop + 1)).zip (sub offsets (start, stop + 1)).tail =
      sub (offsets.zip offsets.tail) (start, stop) := by
  apply List.ext_getElem?
  intro i
  rw [getElem?_sub]
  simp only [List.zip, List.getElem?_zipWith, List.getElem?_tail, getElem?_sub]
  by_cases hi : start + i < stop
  · rw [if_pos (by omega), if_pos (by omega), if_pos hi]
    rfl
  · rw [if_neg hi, if_neg (by omega : ¬ start + (i + 1) < stop + 1)]
    cases (if start + i < stop + 1 then offsets[start + i]? else none) <;> rfl

theorem regularSpans_sub (size n : Nat) (rows : List (Val α)) (hstop : stop ≤ n) :
    lists (regularSpans size (stop - start)) (sub rows (start * size, stop * size)) =
      sub (lists (regularSpans size n) rows) (start, stop) := by
  apply List.ext_getElem?
  intro i
  unfold lists regularSpans
  rw [getElem?_sub, List.map_map, List.map_map, List.getElem?_map, List.getElem?_map]
  by_cases hi : start + i < stop
  · rw [if_pos hi, List.getElem?_range (by omega), List.getElem?_range (hi.trans_le hstop)]
    have hle : start * size + (i + 1) * size ≤ stop * size := by
      rw [← Nat.add_mul]
      exact Nat.mul_le_mul_right size (by omega)
    simp only [Option.map_some, Function.comp_apply, sub_sub _ (i * size, (i + 1) * size) hle]
    rw [← Nat.add_mul, ← Nat.add_mul, Nat.add_assoc]
  · rw [if_neg hi, List.getElem?_eq_none (by rw [List.length_range]; omega)]
    rfl

theorem masked_sub (validWhen : Bool) (mask : List Bool) (rows : List (Val α)) :
    (maskIndex validWhen (sub mask (start, stop))).map (picked (sub rows (start, stop))) =
      sub ((maskIndex validWhen mask).map (picked rows)) (start, stop) := by
  apply List.ext_getElem?
  intro i
  unfold maskIndex
  rw [getElem?_sub, List.getElem?_map, List.getElem?_mapIdx, getElem?_sub, List.getElem?_map,
    List.getElem?_mapIdx]
  by_cases hi : start + i < stop
  · rw [if_pos hi, if_pos hi]
    cases mask[start + i]? with
    | none => rfl
    | some bit =>
        simp only [Option.map_some]
        by_cases hbit : bit = validWhen
        · rw [if_pos hbit, if_pos hbit]
          unfold picked
          rw [if_neg (by omega), if_neg (by omega), Int.toNat_natCast, Int.toNat_natCast,
            getD_sub rows hi]
        · rw [if_neg hbit, if_neg hbit]
          rfl
  · rw [if_neg hi, if_neg hi]
    rfl

theorem sub_take {β : Type} (rows : List β) {start stop len : Nat} (hstop : stop ≤ len) :
    (sub rows (start, stop)).take (min stop len - start) = sub (rows.take len) (start, stop) := by
  unfold sub
  rw [List.take_take, Nat.min_eq_left hstop, List.take_of_length_le]
  rw [List.length_drop, List.length_take]
  omega

/-- **The rows of a slice.** -/
theorem rows_slice (f : Form) (s : Seen f) {p : Layout α f} (hvalid : p.Valid f)
    (hle : start ≤ stop) (hstop : stop ≤ p.length f) :
    (p.slice start stop f).rows f s = sub (p.rows f s) (start, stop) := by
  induction f generalizing start stop with
  | numpy =>
      change (if s.1 = true then (p.data.slice start stop).items.map Val.leaf
        else List.replicate (p.data.slice start stop).length .unread) =
        sub (if s.1 = true then p.data.items.map .leaf else List.replicate p.data.length .unread) _
      split
      · rw [p.data.items_slice, sub_map]
      · rw [p.data.length_slice, sub_replicate]
  | record n names fields ih =>
      change stop ≤ p.len at hstop
      change recordRows names (fun k => (slice start stop (fields k) (p.contents k)).rows _ (s k))
        (min stop p.len - start) = _
      have hfields : (fun k => (slice start stop (fields k) (p.contents k)).rows (fields k) (s k)) =
          fun k => sub ((p.contents k).rows (fields k) (s k)) (start, stop) := by
        funext k
        exact ih k (s k) (hvalid k).1 hle (hstop.trans (hvalid k).2)
      rw [hfields, recordRows_sub names _ hstop]
      rfl
  | listOffset content _ =>
      obtain ⟨hread, hne, -⟩ := hvalid
      change stop ≤ p.offsets.length - 1 at hstop
      have hpos := List.length_pos_iff.mpr hne
      have hlength := p.offsets.length_items hread
      change (if s.1 = true then lists ((p.offsets.slice start (stop + 1)).items.zip
          (p.offsets.slice start (stop + 1)).items.tail) (rows content s.2 p.content)
        else List.replicate ((p.offsets.slice start (stop + 1)).length - 1) .unread) =
        sub (if s.1 = true then _ else List.replicate (p.offsets.length - 1) .unread) _
      split
      · rw [p.offsets.items_slice, zip_tail_sub]
        exact (sub_map _ _ _).symm
      · rw [p.offsets.length_slice, sub_replicate]
        congr 1
        omega
  | list content _ =>
      change (if s.1 = true then lists ((p.starts.slice start stop).items.zip
          (p.stops.slice start stop).items) (rows content s.2 p.content)
        else List.replicate (p.starts.slice start stop).length .unread) =
        sub (if s.1 = true then _ else List.replicate p.starts.length .unread) _
      split
      · rw [p.starts.items_slice, p.stops.items_slice, ← sub_zip]
        exact (sub_map _ _ _).symm
      · rw [p.starts.length_slice, sub_replicate]
  | regular size content ih =>
      have hlength := length_slice (.regular size content) hvalid hle hstop
      change lists (regularSpans size (length (.regular size content)
        (slice start stop (.regular size content) p)))
        ((slice (start * size) (stop * size) content p.content).rows content s) = _
      rw [hlength]
      refine Eq.trans (congrArg (lists _) ?_)
        (regularSpans_sub size (length (.regular size content) p) (p.content.rows content s) hstop)
      change stop ≤ if size = 0 then p.zerosLength else length content p.content / size at hstop
      by_cases hsize : size = 0
      · subst hsize
        exact ih s hvalid (by omega) (by omega)
      · rw [if_neg hsize] at hstop
        exact ih s hvalid (Nat.mul_le_mul_right size hle)
          ((Nat.mul_le_mul_right size hstop).trans (Nat.div_mul_le_self _ _))
  | byteMasked validWhen content ih =>
      obtain ⟨hread, hlength, hcontent⟩ := hvalid
      change stop ≤ p.mask.length at hstop
      change (if s.1 = true then (maskIndex validWhen (p.mask.slice start stop).items).map
          (picked ((slice start stop content p.content).rows content s.2))
        else List.replicate (p.mask.slice start stop).length .unread) =
        sub (if s.1 = true then _ else List.replicate p.mask.length .unread) _
      split
      · rw [p.mask.items_slice, ih s.2 hcontent hle (hstop.trans hlength), masked_sub]
      · rw [p.mask.length_slice, sub_replicate]
  | bitMasked validWhen content ih =>
      obtain ⟨hread, hlength, hbits, hcontent⟩ := hvalid
      change stop ≤ p.len at hstop
      change (if s.1 = true then (maskIndex validWhen ((p.mask.slice start stop).items.take
          (min stop p.len - start))).map
          (picked ((slice start stop content p.content).rows content s.2))
        else List.replicate (min stop p.len - start) .unread) =
        sub (if s.1 = true then _ else List.replicate p.len .unread) _
      split
      · rw [p.mask.items_slice, ih s.2 hcontent hle (hstop.trans hbits), sub_take _ hstop,
          masked_sub]
      · rw [sub_replicate]
  | unmasked content ih => exact ih s hvalid hle hstop
  | indexed option content _ =>
      change (if s.1 = true then (p.index.slice start stop).items.map _
        else List.replicate (p.index.slice start stop).length Val.unread) =
        sub (if s.1 = true then _ else List.replicate p.index.length Val.unread) _
      split
      · rw [p.index.items_slice, sub_map]
        rfl
      · rw [p.index.length_slice, sub_replicate]
  | union n contents _ =>
      change (if s.1 = true then ((p.tags.slice start stop).items.zip
          (p.index.slice start stop).items).map _
        else List.replicate (p.tags.slice start stop).length Val.unread) =
        sub (if s.1 = true then _ else List.replicate p.tags.length Val.unread) _
      split
      · rw [p.tags.items_slice, p.index.items_slice, ← sub_zip, sub_map]
        rfl
      · rw [p.tags.length_slice, sub_replicate]

/-! ### What a read leaves -/

theorem Leaves.length_eq {f : Form} {p whole : Layout α f} (h : p.Leaves f whole) :
    p.length f = whole.length f := by
  induction f with
  | numpy => exact h.1
  | record n names fields _ => exact h.1
  | listOffset content _ => exact congrArg (· - 1) h.1.1
  | list content _ => exact h.1.1
  | regular size content ih =>
      change (if size = 0 then p.zerosLength else length content p.content / size) =
        if size = 0 then whole.zerosLength else length content whole.content / size
      rw [h.1, ih h.2]
  | byteMasked validWhen content _ => exact h.1.1
  | bitMasked validWhen content _ => exact h.2.1
  | unmasked content ih => exact ih h
  | indexed option content _ => exact h.1.1
  | union n contents _ => exact h.1.1

theorem Leaves.slice {f : Form} {p whole : Layout α f} (h : p.Leaves f whole) (start stop : Nat) :
    (p.slice start stop f).Leaves f (whole.slice start stop f) := by
  induction f generalizing start stop with
  | numpy => exact Buffer.Leaves.slice h start stop
  | record n names fields ih =>
      refine ⟨?_, fun k => ih k (h.2 k) start stop⟩
      change min stop p.len - start = min stop whole.len - start
      rw [h.1]
  | listOffset content _ =>
      refine ⟨h.1.slice _ _, fun hread => h.2 ?_⟩
      exact (p.offsets.isRead_slice _ _).symm.trans hread
  | list content _ =>
      refine ⟨h.1.slice _ _, h.2.1.slice _ _, fun hread => h.2.2 ⟨?_, ?_⟩⟩
      · exact (p.starts.isRead_slice _ _).symm.trans hread.1
      · exact (p.stops.isRead_slice _ _).symm.trans hread.2
  | regular size content ih =>
      refine ⟨?_, ih h.2 _ _⟩
      change min stop p.zerosLength - start = min stop whole.zerosLength - start
      rw [h.1]
  | byteMasked validWhen content ih =>
      refine ⟨h.1.slice _ _, fun hread => ih (h.2 ?_) _ _⟩
      exact (p.mask.isRead_slice _ _).symm.trans hread
  | bitMasked validWhen content ih =>
      refine ⟨h.1.slice _ _, ?_, fun hread => ih (h.2.2 ?_) _ _⟩
      · change min stop p.len - start = min stop whole.len - start
        rw [h.2.1]
      · exact (p.mask.isRead_slice _ _).symm.trans hread
  | unmasked content ih => exact ih h start stop
  | indexed option content _ =>
      refine ⟨h.1.slice _ _, fun hread => h.2 ?_⟩
      exact (p.index.isRead_slice _ _).symm.trans hread
  | union n contents _ =>
      refine ⟨h.1.slice _ _, h.2.1.slice _ _, fun hread => h.2.2 ⟨?_, ?_⟩⟩
      · exact (p.tags.isRead_slice _ _).symm.trans hread.1
      · exact (p.index.isRead_slice _ _).symm.trans hread.2

theorem all_finRange {n : Nat} {b : Fin n → Bool} :
    (List.finRange n).all b = true ↔ ∀ k, b k = true := by
  simp

/-- A layout with no placeholder is the whole. -/
theorem Leaves.eq_of_isRead {f : Form} {p whole : Layout α f} (h : p.Leaves f whole)
    (hread : p.isRead f = true) : p = whole := by
  induction f with
  | numpy => exact congrArg NumpyArray.mk (h.2 hread)
  | record n names fields ih =>
      have hfields := all_finRange.mp hread
      obtain ⟨contents, len⟩ := p
      obtain ⟨contents', len'⟩ := whole
      obtain ⟨rfl, hcontents⟩ := h
      exact congrArg (RecordArray.mk · _) (funext fun k => ih k (hcontents k) (hfields k))
  | listOffset content ih =>
      obtain ⟨hoffsets, hcontent⟩ := Bool.and_eq_true_iff.mp hread
      exact congrArg₂ ListOffsetArray.mk (h.1.2 hoffsets) (ih (h.2 hoffsets) hcontent)
  | list content ih =>
      obtain ⟨hspans, hcontent⟩ := Bool.and_eq_true_iff.mp hread
      obtain ⟨hstarts, hstops⟩ := Bool.and_eq_true_iff.mp hspans
      obtain ⟨starts, stops, c⟩ := p
      obtain ⟨starts', stops', c'⟩ := whole
      obtain rfl : starts = starts' := h.1.2 hstarts
      obtain rfl : stops = stops' := h.2.1.2 hstops
      exact congrArg (ListArray.mk starts stops) (ih (h.2.2 ⟨hstarts, hstops⟩) hcontent)
  | regular size content ih => exact congrArg₂ RegularArray.mk (ih h.2 hread) h.1
  | byteMasked validWhen content ih =>
      obtain ⟨hmask, hcontent⟩ := Bool.and_eq_true_iff.mp hread
      exact congrArg₂ ByteMaskedArray.mk (h.1.2 hmask) (ih (h.2 hmask) hcontent)
  | bitMasked validWhen content ih =>
      obtain ⟨hmask, hcontent⟩ := Bool.and_eq_true_iff.mp hread
      obtain ⟨mask, len, c⟩ := p
      obtain ⟨mask', len', c'⟩ := whole
      obtain rfl : mask = mask' := h.1.2 hmask
      obtain rfl : len = len' := h.2.1
      exact congrArg (BitMaskedArray.mk mask len) (ih (h.2.2 hmask) hcontent)
  | unmasked content ih => exact congrArg UnmaskedArray.mk (ih h hread)
  | indexed option content ih =>
      obtain ⟨hindex, hcontent⟩ := Bool.and_eq_true_iff.mp hread
      exact congrArg₂ IndexedArray.mk (h.1.2 hindex) (ih (h.2 hindex) hcontent)
  | union n contents ih =>
      obtain ⟨hitems, hcontents⟩ := Bool.and_eq_true_iff.mp hread
      obtain ⟨htags, hindex⟩ := Bool.and_eq_true_iff.mp hitems
      have hall := all_finRange.mp hcontents
      obtain ⟨tags, index, cs⟩ := p
      obtain ⟨tags', index', cs'⟩ := whole
      obtain rfl : tags = tags' := h.1.2 htags
      obtain rfl : index = index' := h.2.1.2 hindex
      have hleaves := h.2.2 ⟨htags, hindex⟩
      exact congrArg (UnionArray.mk tags index) (funext fun k => ih k (hleaves k) (hall k))

/-! ### What is seen -/

/-- Where all is read, all is seen. -/
theorem seen_of_isRead (f : Form) {ps : List (Layout α f)} (h : ∀ p ∈ ps, p.isRead f = true) :
    seen f ps = seen f ([] : List (Layout α f)) := by
  have hpair : ∀ {β : Type} {a : Bool} {b c : β}, a = true → b = c → (a, b) = (true, c) := by
    rintro _ _ _ _ rfl rfl
    rfl
  induction f with
  | numpy => exact hpair (List.all_eq_true.mpr h) rfl
  | record n names fields ih =>
      funext k
      exact ih k (List.forall_mem_map.mpr fun p hp => all_finRange.mp (h p hp) k)
  | listOffset content ih =>
      have hand := fun p hp => Bool.and_eq_true_iff.mp (h p hp)
      exact hpair (List.all_eq_true.mpr fun p hp => (hand p hp).1)
        (ih (List.forall_mem_map.mpr fun p hp => (hand p hp).2))
  | list content ih =>
      have hand := fun p hp => Bool.and_eq_true_iff.mp (h p hp)
      exact hpair (List.all_eq_true.mpr fun p hp => (hand p hp).1)
        (ih (List.forall_mem_map.mpr fun p hp => (hand p hp).2))
  | regular size content ih => exact ih (List.forall_mem_map.mpr h)
  | byteMasked validWhen content ih =>
      have hand := fun p hp => Bool.and_eq_true_iff.mp (h p hp)
      exact hpair (List.all_eq_true.mpr fun p hp => (hand p hp).1)
        (ih (List.forall_mem_map.mpr fun p hp => (hand p hp).2))
  | bitMasked validWhen content ih =>
      have hand := fun p hp => Bool.and_eq_true_iff.mp (h p hp)
      exact hpair (List.all_eq_true.mpr fun p hp => (hand p hp).1)
        (ih (List.forall_mem_map.mpr fun p hp => (hand p hp).2))
  | unmasked content ih => exact ih (List.forall_mem_map.mpr h)
  | indexed option content ih =>
      have hand := fun p hp => Bool.and_eq_true_iff.mp (h p hp)
      exact hpair (List.all_eq_true.mpr fun p hp => (hand p hp).1)
        (ih (List.forall_mem_map.mpr fun p hp => (hand p hp).2))
  | union n contents ih =>
      have hand := fun p hp => Bool.and_eq_true_iff.mp (h p hp)
      refine hpair (List.all_eq_true.mpr fun p hp => (hand p hp).1) (funext fun k => ?_)
      exact ih k (List.forall_mem_map.mpr fun p hp => all_finRange.mp (hand p hp).2 k)

theorem isRead_map_slice {β γ : Type} (xs : List γ) (b : γ → Buffer β) (span : γ → Nat × Nat) :
    (xs.all fun x => ((b x).slice (span x).1 (span x).2).isRead) =
      xs.all fun x => (b x).isRead := by
  congr 1
  funext x
  exact (b x).isRead_slice _ _

/-- **A slice sees what it is a slice of.** -/
theorem seen_slice (f : Form) {γ : Type} (xs : List γ) (layout : γ → Layout α f)
    (span : γ → Nat × Nat) :
    seen f (xs.map fun x => (layout x).slice (span x).1 (span x).2 f) = seen f (xs.map layout) := by
  induction f generalizing γ with
  | numpy =>
      refine Prod.ext ?_ rfl
      change (xs.map _).all _ = (xs.map _).all _
      rw [List.all_map, List.all_map]
      exact isRead_map_slice xs (fun x => (layout x).data) span
  | record n names fields ih =>
      funext k
      change seen (fields k) ((xs.map _).map _) = seen (fields k) ((xs.map _).map _)
      rw [List.map_map, List.map_map]
      exact ih k xs (fun x => (layout x).contents k) span
  | listOffset content _ =>
      refine Prod.ext ?_ ?_
      · change (xs.map _).all _ = (xs.map _).all _
        rw [List.all_map, List.all_map]
        exact isRead_map_slice xs (fun x => (layout x).offsets) fun x =>
          ((span x).1, (span x).2 + 1)
      · change seen content ((xs.map _).map _) = seen content ((xs.map _).map _)
        rw [List.map_map, List.map_map]
        rfl
  | list content _ =>
      refine Prod.ext ?_ ?_
      · change (xs.map _).all _ = (xs.map _).all _
        rw [List.all_map, List.all_map]
        congr 1
        funext x
        change (((layout x).starts.slice _ _).isRead && ((layout x).stops.slice _ _).isRead) = _
        rw [Buffer.isRead_slice, Buffer.isRead_slice]
        rfl
      · change seen content ((xs.map _).map _) = seen content ((xs.map _).map _)
        rw [List.map_map, List.map_map]
        rfl
  | regular size content ih =>
      change seen content ((xs.map _).map _) = seen content ((xs.map _).map _)
      rw [List.map_map, List.map_map]
      exact ih xs (fun x => (layout x).content) fun x => ((span x).1 * size, (span x).2 * size)
  | byteMasked validWhen content ih =>
      refine Prod.ext ?_ ?_
      · change (xs.map _).all _ = (xs.map _).all _
        rw [List.all_map, List.all_map]
        exact isRead_map_slice xs (fun x => (layout x).mask) span
      · change seen content ((xs.map _).map _) = seen content ((xs.map _).map _)
        rw [List.map_map, List.map_map]
        exact ih xs (fun x => (layout x).content) span
  | bitMasked validWhen content ih =>
      refine Prod.ext ?_ ?_
      · change (xs.map _).all _ = (xs.map _).all _
        rw [List.all_map, List.all_map]
        exact isRead_map_slice xs (fun x => (layout x).mask) span
      · change seen content ((xs.map _).map _) = seen content ((xs.map _).map _)
        rw [List.map_map, List.map_map]
        exact ih xs (fun x => (layout x).content) span
  | unmasked content ih =>
      change seen content ((xs.map _).map _) = seen content ((xs.map _).map _)
      rw [List.map_map, List.map_map]
      exact ih xs (fun x => (layout x).content) span
  | indexed option content _ =>
      refine Prod.ext ?_ ?_
      · change (xs.map _).all _ = (xs.map _).all _
        rw [List.all_map, List.all_map]
        exact isRead_map_slice xs (fun x => (layout x).index) span
      · change seen content ((xs.map _).map _) = seen content ((xs.map _).map _)
        rw [List.map_map, List.map_map]
        rfl
  | union n contents _ =>
      refine Prod.ext ?_ (funext fun k => ?_)
      · change (xs.map _).all _ = (xs.map _).all _
        rw [List.all_map, List.all_map]
        congr 1
        funext x
        change (((layout x).tags.slice _ _).isRead && ((layout x).index.slice _ _).isRead) = _
        rw [Buffer.isRead_slice, Buffer.isRead_slice]
        rfl
      · change seen (contents k) ((xs.map _).map _) = seen (contents k) ((xs.map _).map _)
        rw [List.map_map, List.map_map]
        rfl

end Layout

end Graphed.Blocks
