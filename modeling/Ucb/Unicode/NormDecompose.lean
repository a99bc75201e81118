import Ucb.Unicode.NormCompose

/-!
Contract: decomposition and the reorder window against canonical ordering.

Owns:
- what a context holds: the window, as the part of an ordered text behind the
  last flush, and the flushed part in the buffer;
- every step on a context as insertion into that text;
- the loop of `normalize`, which leaves a whole text decomposed and ordered.

Every allocation succeeds here.
-/

namespace Ucb.Unicode

open Ucb.Lib

/-! ## Steps that succeed -/

def Leads (step : Exec (Except EncodeFailure NormCtx)) (holds : NormCtx → Prop) : Prop :=
  ∃ ctx, step = .ok (.ok ctx) ∧ holds ctx

theorem Leads.pure {ctx : NormCtx} {holds : NormCtx → Prop} (now : holds ctx) :
    Leads (pure (.ok ctx)) holds :=
  ⟨ctx, rfl, now⟩

theorem Leads.andThen {step : Exec (Except EncodeFailure NormCtx)} {holds holds' : NormCtx → Prop}
    {next : NormCtx → Exec (Except EncodeFailure NormCtx)} (first : Leads step holds)
    (later : ∀ ctx, holds ctx → Leads (next ctx) holds') : Leads (andThen step next) holds' := by
  obtain ⟨ctx, rfl, now⟩ := first
  exact later ctx now

theorem Leads.foldl {α : Type} {next : NormCtx → α → Exec (Except EncodeFailure NormCtx)}
    (holds : List α → NormCtx → Prop) (xs : List α) :
    ∀ (front : List α) {start : Exec (Except EncodeFailure NormCtx)},
      (∀ front, ∀ x ∈ xs, ∀ ctx, holds front ctx → Leads (next ctx x) (holds (front ++ [x]))) →
      Leads start (holds front) →
      Leads (xs.foldl (fun step x => Unicode.andThen step fun ctx => next ctx x) start)
        (holds (front ++ xs)) := by
  induction xs with
  | nil =>
      intro front start _ now
      rwa [List.append_nil]
  | cons x xs inductionHypothesis =>
      intro front start keeps now
      have first := now.andThen (keeps front x (List.mem_cons_self ..))
      have later := inductionHypothesis (front ++ [x])
        (fun front y member => keeps front y (List.mem_cons_of_mem x member)) first
      rwa [List.append_assoc, List.singleton_append] at later

/-! ## Contexts -/

variable (ucd : Ucd) (form : NormForm)

def stored (cps : List Scalar) : List UInt8 :=
  if form.composes then wordsBytes (scalarValues cps) else encode cps

/-- The context of a form with this window and this flushed part, both reversed. -/
structure CtxHolds (window flushed : List Scalar) (ctx : NormCtx) : Prop where
  compose : ctx.compose = form.composes
  compat : ctx.compat = form.compat
  window : ctx.window = window.reverse.map fun c => (c.val, ucd.ccc c)
  buffer : ∃ spare, ctx.cp =
    ⟨stored form flushed.reverse ++ spare, (stored form flushed.reverse).length, .double⟩

/-- The context of a form in which a decomposed text has been put in order. -/
def Ordering (done : List Scalar) (ctx : NormCtx) : Prop :=
  ∃ window flushed, orderRev ucd.ccc [] done = window ++ flushed ∧
    Sealed ucd.ccc window flushed ∧ CtxHolds ucd form window flushed ctx

variable {ucd form} {tables : UcbUcNormTables} {allocator : Allocator} {ctx : NormCtx}

theorem stored_append (left right : List Scalar) :
    stored form (left ++ right) = stored form left ++ stored form right := by
  unfold stored
  split
  · rw [scalarValues_append, wordsBytes_append]
  · exact encode_append left right

theorem growSlow_generous (generous : allocator.Generous) (ctx : NormCtx) {needed : Nat}
    (positive : 0 < needed) :
    ∃ cap, normCtxGrowSlow allocator ctx needed = .ok { ctx with cap := cap } := by
  have block :=
    malloc_granted (generous .malloc (max (normCapLoop needed needed ctx.cap) needed * 5))
    (by omega)
  rw [normCtxGrowSlow, block]
  exact ⟨_, rfl⟩

/-- A codepoint bubbles to its place in canonical order. -/
theorem bubble_eq {c : Scalar} (mark : 0 < ucd.ccc c) (window : List Scalar) :
    bubble (c.val, ucd.ccc c) (window.map fun c => (c.val, ucd.ccc c)) =
      (insertRev ucd.ccc c window).map fun c => (c.val, ucd.ccc c) := by
  induction window with
  | nil => rfl
  | cons b before inductionHypothesis =>
      rw [List.map_cons, bubble, insertRev, inductionHypothesis]
      by_cases above : ucd.ccc b > ucd.ccc c
      · rw [if_pos above, if_pos ⟨mark, above⟩, List.map_cons]
      · rw [if_neg above, if_neg (fun out : Reorderable ucd.ccc b c => above out.2), List.map_cons,
          List.map_cons]

theorem normCtxAdd_holds (generous : allocator.Generous) {window flushed : List Scalar}
    (held : CtxHolds ucd form window flushed ctx) (c : Scalar) :
    Leads (normCtxAdd allocator ctx c.val (ucd.ccc c))
      (CtxHolds ucd form (insertRev ucd.ccc c window) flushed) := by
  have grown : ∃ cap, (if ctx.window.length ≥ ctx.cap then
      normCtxGrowSlow allocator ctx (ctx.window.length + 1) else .ok ctx) =
      .ok { ctx with cap := cap } := by
    split
    · exact growSlow_generous generous ctx (Nat.succ_pos _)
    · exact ⟨ctx.cap, rfl⟩
  obtain ⟨cap, grown⟩ := grown
  have reversed : ctx.window.reverse = window.map fun c => (c.val, ucd.ccc c) := by
    rw [held.window, ← List.map_reverse, List.reverse_reverse]
  have length : ctx.window.length = window.length := by
    rw [held.window, List.length_map, List.length_reverse]
  rw [normCtxAdd, grown]
  refine Leads.andThen (Leads.pure rfl : Leads _ (· = { ctx with cap := cap })) ?_
  rintro _ rfl
  dsimp only
  split
  next moves =>
    apply Leads.pure
    refine ⟨held.compose, held.compat, ?_, held.buffer⟩
    rw [reversed, bubble_eq moves.1, List.map_reverse]
  next stays =>
    apply Leads.pure
    refine ⟨held.compose, held.compat, ?_, held.buffer⟩
    have last : insertRev ucd.ccc c window = c :: window := by
      by_cases starter : ucd.ccc c = 0
      · exact insertRev_starter starter window
      · have empty : window = [] := by
          apply List.eq_nil_of_length_eq_zero
          by_contra nonempty
          exact stays ⟨by omega, by omega⟩
        rw [empty]
        rfl
    rw [last, held.window, List.reverse_cons, List.map_append]
    rfl

theorem normCtxFlush_holds (generous : allocator.Generous) (tables : UcbUcNormTables)
    {window flushed : List Scalar} (held : CtxHolds ucd form window flushed ctx) :
    Leads (normCtxFlush tables allocator ctx) (CtxHolds ucd form [] (window ++ flushed)) := by
  have cps : ctx.window.map Prod.fst = scalarValues window.reverse := by
    rw [held.window, List.map_map]
    rfl
  have length : ctx.window.length = window.length := by
    rw [held.window, List.length_map, List.length_reverse]
  obtain ⟨spare, buffer⟩ := held.buffer
  have grows : stored form (window ++ flushed).reverse =
      stored form flushed.reverse ++ stored form window.reverse := by
    rw [List.reverse_append, stored_append]
  unfold normCtxFlush
  rw [cps, length]
  by_cases nonempty : window.length > 0
  · rw [if_pos nonempty, held.compose]
    split
    next composes =>
      have bytes : stored form window.reverse = wordsBytes (scalarValues window.reverse) :=
        if_pos composes
      obtain ⟨spare', pushed⟩ := bufferPush_double generous (stored form flushed.reverse) spare
        (wordsBytes (scalarValues window.reverse))
      rw [← bytes, ← grows] at pushed
      rw [buffer, ← bytes, pushed]
      exact ⟨_, rfl, rfl, held.compat, rfl, spare', rfl⟩
    next decomposes =>
      have bytes : stored form window.reverse = encode window.reverse := if_neg decomposes
      obtain ⟨spare', encoded⟩ := encodeCodepoints_double tables.multiLen generous window.reverse
        (stored form flushed.reverse) spare
      rw [← bytes, ← grows] at encoded
      rw [buffer, encoded]
      exact ⟨_, rfl, rfl, held.compat, rfl, spare', rfl⟩
  · have empty : window = [] := List.eq_nil_of_length_eq_zero (by omega)
    subst empty
    exact ⟨ctx, rfl, held⟩

/-! ## Steps of the order -/

theorem normCtxAdd_ordering (generous : allocator.Generous) {done : List Scalar}
    (ordering : Ordering ucd form done ctx) (c : Scalar) :
    Leads (normCtxAdd allocator ctx c.val (ucd.ccc c)) (Ordering ucd form (done ++ [c])) := by
  obtain ⟨window, flushed, ordered, isSealed, held⟩ := ordering
  obtain ⟨ctx', added, held'⟩ := normCtxAdd_holds generous held c
  refine ⟨ctx', added, insertRev ucd.ccc c window, flushed, ?_, sealed_insertRev isSealed c, held'⟩
  rw [orderRev_append, ordered, orderRev_cons, insertRev_append isSealed]
  rfl

theorem normCtxFlush_ordering (generous : allocator.Generous) (tables : UcbUcNormTables)
    {done : List Scalar} (ordering : Ordering ucd form done ctx)
    (starter : ∀ last ∈ (orderRev ucd.ccc [] done).head?, ucd.ccc last = 0) :
    Leads (normCtxFlush tables allocator ctx) (Ordering ucd form done) := by
  obtain ⟨window, flushed, ordered, -, held⟩ := ordering
  obtain ⟨ctx', flush, held'⟩ := normCtxFlush_holds generous tables held
  rw [ordered] at starter
  exact ⟨ctx', flush, [], window ++ flushed, ordered, .inr starter, held'⟩

theorem normAppendCp_ordering (generous : allocator.Generous) (tables : UcbUcNormTables)
    {done : List Scalar} (ordering : Ordering ucd form done ctx) (c : Scalar) :
    Leads (normAppendCp tables allocator ctx c.val (ucd.ccc c))
      (Ordering ucd form (done ++ [c])) := by
  unfold normAppendCp
  split
  next starter =>
    obtain ⟨window, flushed, ordered, -, held⟩ := ordering
    apply (normCtxFlush_holds generous tables held).andThen
    intro ctx' held'
    obtain ⟨ctx'', added, held''⟩ := normCtxAdd_holds generous held' c
    refine ⟨ctx'', added, [c], window ++ flushed, ?_, .inl ⟨c, by simp, starter⟩, held''⟩
    rw [orderRev_append, ordered, orderRev_cons, insertRev_starter starter]
    rfl
  next mark =>
    exact (Leads.pure ordering).andThen fun ctx' ordering' =>
      normCtxAdd_ordering generous ordering' c

/-! ## Decomposition -/

/-- `norm_decompose_cp`, with its loop over the decomposition as a fold. -/
theorem normDecomposeCp_step (agrees : Agrees ucd tables) (allocator : Allocator) (ctx : NormCtx)
    (cp : Scalar) :
    normDecomposeCp tables allocator ctx cp.val =
      match ucd.mapping cp with
      | none => normAppendCp tables allocator ctx cp.val (ucd.ccc cp)
      | some (type, vals) =>
          if type = .canon ∨ ctx.compat = true then
            vals.foldl
              (fun step next => andThen step fun ctx =>
                normDecomposeCp tables allocator ctx next.val)
              (pure (.ok ctx))
          else normAppendCp tables allocator ctx cp.val (ucd.ccc cp) := by
  have prop := getProp_scalar tables.toUcbUcTables cp
  have decomp := agrees.decomp cp
  rw [← agrees.ccc cp]
  rw [normDecomposeCp]
  split
  next failed => rw [prop] at failed; cases failed
  next failed => rw [prop] at failed; cases failed
  next prop' found =>
    obtain rfl := Exec.ok.inj (prop.symm.trans found)
    split
    next failed => rw [decomp] at failed; cases failed
    next failed => rw [decomp] at failed; cases failed
    next unmapped =>
      obtain mapped := Exec.ok.inj (decomp.symm.trans unmapped)
      rw [Option.map_eq_none_iff.mp mapped]
    next step stepped =>
      obtain ⟨⟨type, vals⟩, mapped, rfl⟩ :=
        Option.map_eq_some_iff.mp (Exec.ok.inj (decomp.symm.trans stepped))
      rw [mapped]
      dsimp only
      split
      next applies =>
        have whole := @List.foldl_attach _ _ (scalarValues vals)
          (fun step value => andThen step fun ctx => normDecomposeCp tables allocator ctx value)
          (pure (.ok ctx))
        rw [whole, scalarValues, List.foldl_map]
      next => rfl

/-- Decomposing a codepoint puts its full decomposition in order. -/
theorem normDecomposeCp_ordering (agrees : Agrees ucd tables) (generous : allocator.Generous)
    (rank : Nat) :
    ∀ {cp : Scalar} {done : List Scalar} {ctx : NormCtx}, ucd.rank cp ≤ rank →
      ¬ IsHangulSyllable cp.val → Ordering ucd form done ctx →
      Leads (normDecomposeCp tables allocator ctx cp.val)
        (Ordering ucd form (done ++ ucd.decompose form.compat cp)) := by
  induction rank using Nat.strong_induction_on with
  | _ rank inductionHypothesis =>
      intro cp done ctx bound noSyllable ordering
      have compat : ctx.compat = form.compat := by
        obtain ⟨_, _, _, _, held⟩ := ordering
        exact held.compat
      rw [normDecomposeCp_step agrees]
      split
      next unmapped =>
        rw [Ucd.decompose_unmapped form.compat noSyllable unmapped]
        exact normAppendCp_ordering generous tables ordering cp
      next type vals mapped =>
        rw [compat]
        split
        next applies =>
          rw [Ucd.decompose_mapped mapped applies]
          refine Leads.foldl
            (fun front => Ordering ucd form (done ++ front.flatMap (ucd.decompose form.compat)))
            vals [] ?_ ?_
          · intro front next member ctx' ordering'
            have below := ucd.rank_lt mapped next member
            have later := inductionHypothesis (ucd.rank next) (by omega) (Nat.le_refl _)
              (ucd.syllable_free mapped next member) ordering'
            rwa [List.append_assoc, ← List.flatMap_singleton (ucd.decompose form.compat) next,
              ← List.flatMap_append] at later
          · exact Leads.pure (by simpa using ordering)
        next other =>
          have atomic : ucd.decompose form.compat cp = [cp] := by
            have compatType : type = .compat ∧ form.compat = false := by
              cases type <;> simp_all
            obtain ⟨rfl, canonical⟩ := compatType
            rw [canonical]
            exact Ucd.decompose_other mapped
          rw [atomic]
          exact normAppendCp_ordering generous tables ordering cp

theorem addStarters_ordering (generous : allocator.Generous) {starters : List Scalar}
    (isStarter : ∀ c ∈ starters, ucd.ccc c = 0) {done : List Scalar}
    (ordering : Ordering ucd form done ctx) :
    Leads ((starters.map Subtype.val).foldl
        (fun step cp => andThen step fun ctx => normCtxAdd allocator ctx cp 0) (pure (.ok ctx)))
      (Ordering ucd form (done ++ starters)) := by
  rw [List.foldl_map]
  refine Leads.foldl (fun front => Ordering ucd form (done ++ front)) starters [] ?_ ?_
  · intro front c member ctx' ordering'
    have added := normCtxAdd_ordering generous ordering' c
    rwa [isStarter c member, List.append_assoc] at added
  · exact Leads.pure (by simpa using ordering)

theorem normDecomposeHangul_ordering (generous : allocator.Generous) {syllable : Scalar}
    (isSyllable : IsHangulSyllable syllable.val) {done : List Scalar}
    (ordering : Ordering ucd form done ctx) :
    Leads (normDecomposeHangul allocator ctx syllable.val)
      (Ordering ucd form (done ++ hangulDecomposition syllable isSyllable)) := by
  rw [normDecomposeHangul, ← hangulJamo_eq syllable isSyllable]
  exact addStarters_ordering generous
    (fun jamo member => ucd.hangul_ccc
      (.inr (hangulDecomposition_jamo isSyllable jamo member))) ordering

/-! ## The loop of `normalize` -/

theorem normalizeStep_ordering (agrees : Agrees ucd tables) (generous : allocator.Generous)
    (cp : Scalar) {done : List Scalar} (ordering : Ordering ucd form done ctx) :
    Leads (normalizeStep tables allocator ctx cp.val)
      (Ordering ucd form (done ++ ucd.decompose form.compat cp)) := by
  unfold normalizeStep
  split
  next isSyllable =>
    rw [Ucd.decompose_syllable form.compat isSyllable]
    apply (normDecomposeHangul_ordering generous isSyllable ordering).andThen
    intro ctx' ordering'
    apply normCtxFlush_ordering generous tables ordering'
    have nonempty := hangulDecomposition_ne_nil isSyllable
    have starter := ucd.hangul_ccc
      (.inr (hangulDecomposition_jamo isSyllable _ (List.getLast_mem nonempty)))
    rw [← List.dropLast_append_getLast nonempty, ← List.append_assoc, orderRev_append,
      orderRev_cons, insertRev_starter starter]
    intro last isLast
    obtain rfl := Option.some.inj isLast
    exact starter
  next noSyllable =>
    apply (normDecomposeCp_ordering agrees generous _ (Nat.le_refl _) noSyllable ordering).andThen
    intro ctx' ordering'
    split
    next starter =>
      apply normCtxFlush_ordering generous tables ordering'
      obtain ⟨window, flushed, ordered, -, held⟩ := ordering'
      rw [held.window, List.getLast?_map, List.getLast?_reverse, Option.map_map] at starter
      obtain ⟨first, isFirst, class'⟩ := Option.map_eq_some_iff.mp starter
      rw [ordered, List.head?_append, isFirst]
      intro last isLast
      obtain rfl := Option.some.inj isLast
      exact class'
    next => exact Leads.pure ordering'

/-- The loop of `normalize` leaves the text decomposed and put in order. -/
theorem foldCps_ordering (agrees : Agrees ucd tables) (generous : allocator.Generous)
    (cps : List Scalar) :
    ∀ {done : List Scalar} {ctx : NormCtx}, Ordering ucd form done ctx →
      Leads (foldCps (normalizeStep tables allocator) ctx cps)
        (Ordering ucd form (done ++ cps.flatMap (ucd.decompose form.compat))) := by
  induction cps with
  | nil => intro done ctx ordering; exact Leads.pure (by simpa using ordering)
  | cons cp rest inductionHypothesis =>
      intro done ctx ordering
      obtain ⟨ctx', step, ordering'⟩ := normalizeStep_ordering agrees generous cp ordering
      have later := inductionHypothesis ordering'
      rw [foldCps, step, Exec.ok_bind, List.flatMap_cons, ← List.append_assoc]
      exact later

/-- The last flush leaves the whole text in canonical order in the buffer. -/
theorem lastFlush_holds (generous : allocator.Generous) (tables : UcbUcNormTables)
    {cps : List Scalar}
    (ordering : Ordering ucd form (cps.flatMap (ucd.decompose form.compat)) ctx) :
    Leads (normCtxFlush tables allocator ctx)
      (CtxHolds ucd form [] (ucd.ordered form.compat cps).reverse) := by
  obtain ⟨window, flushed, ordered, -, held⟩ := ordering
  have flush := normCtxFlush_holds generous tables held
  rwa [← ordered, ← List.reverse_reverse (orderRev ucd.ccc [] _)] at flush

end Ucb.Unicode
