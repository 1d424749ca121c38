import Mathlib.Data.List.Basic

/-!
# Blocking transfers on a byte stream

The kernel's side of a stream is the data still to come and the results it will
give to the next calls: a non-empty part, an interruption, or an error. Once
the prescribed results are used up, a call transfers all it can. Reading to a
fixed length and writing everything are the two retry loops; both are total,
and what they transfer does not depend on how the calls were split.
-/

namespace Channel

variable {α : Type*}

/-- The result the kernel prescribes for one call. -/
inductive Answer
  /-- Transfer at most `k + 1` elements. -/
  | chunk (k : Nat)
  /-- Fail with `EINTR`. -/
  | eintr
  /-- Fail with another error. -/
  | failed
  deriving DecidableEq, Repr

/-- What one call reports. -/
inductive Result (β : Type*)
  | done (b : β)
  | eof
  | eintr
  | failed
  deriving DecidableEq, Repr

/-- The reading end: the data until the peer's close, and the results to come. -/
structure Source (α : Type*) where
  inbound : List α
  answers : List Answer

/-- The writing end: the data accepted so far, and the results to come. -/
structure Sink (α : Type*) where
  wire : List α
  answers : List Answer

/-- Hand over at most `n` elements, or report the end of the stream. -/
def Source.take (src : Source α) (n : Nat) (as : List Answer) : Result (List α) × Source α :=
  if src.inbound.isEmpty then (.eof, ⟨[], as⟩)
  else (.done (src.inbound.take n), ⟨src.inbound.drop n, as⟩)

/-- `read(fd, buf, n)`. -/
def Source.read (src : Source α) (n : Nat) : Result (List α) × Source α :=
  match src.answers with
  | [] => src.take n []
  | .chunk k :: as => src.take (min (k + 1) n) as
  | .eintr :: as => (.eintr, { src with answers := as })
  | .failed :: as => (.failed, { src with answers := as })

/-- `write(fd, d, |d|)`: the number of elements accepted. -/
def Sink.write (snk : Sink α) (d : List α) : Result Nat × Sink α :=
  match snk.answers with
  | [] => (.done d.length, ⟨snk.wire ++ d, []⟩)
  | .chunk k :: as => (.done (min (k + 1) d.length), ⟨snk.wire ++ d.take (k + 1), as⟩)
  | .eintr :: as => (.eintr, { snk with answers := as })
  | .failed :: as => (.failed, { snk with answers := as })

/-- What is left to happen at a reading end. -/
def Source.size (src : Source α) : Nat := src.answers.length + src.inbound.length

theorem Source.size_take {src src' : Source α} {n : Nat} {as : List Answer}
    {r : Result (List α)} (hn : 0 < n) (h : src.take n as = (r, src')) :
    r = .eof ∨ (∃ d, r = .done d) ∧ src'.size < as.length + src.inbound.length := by
  unfold take at h
  split at h
  · exact Or.inl (Prod.mk.inj h).1.symm
  · next hne =>
    obtain ⟨rfl, rfl⟩ := Prod.mk.inj h
    have hpos : 0 < src.inbound.length := by
      rw [List.length_pos_iff]
      simpa [List.isEmpty_iff] using hne
    refine Or.inr ⟨⟨_, rfl⟩, ?_⟩
    simp only [size, List.length_drop]
    omega

/-- A call that delivers data or is interrupted leaves less to happen. -/
theorem Source.size_read {src src' : Source α} {n : Nat} {r : Result (List α)} (hn : 0 < n)
    (h : src.read n = (r, src')) : r = .eof ∨ r = .failed ∨ src'.size < src.size := by
  rcases src with ⟨inbound, answers⟩
  rcases answers with _ | ⟨_ | _ | _, as⟩
  · rcases size_take hn h with he | ⟨-, hlt⟩
    · exact Or.inl he
    · exact Or.inr (Or.inr hlt)
  · rcases size_take (by omega) h with he | ⟨-, hlt⟩
    · exact Or.inl he
    · simp only [size, List.length_cons] at hlt ⊢
      exact Or.inr (Or.inr (by omega))
  · obtain ⟨-, rfl⟩ := Prod.mk.inj h
    simp only [size, List.length_cons]
    exact Or.inr (Or.inr (by omega))
  · exact Or.inr (Or.inl (Prod.mk.inj h).1.symm)

/-- The reading loop: `while (received < total)`, retrying after `EINTR`. -/
def readFull (src : Source α) (total : Nat) (got : List α) : Option (List α) × Source α :=
  if _hgot : got.length < total then
    match _h : src.read (total - got.length) with
    | (.done d, src') => readFull src' total (got ++ d)
    | (.eintr, src') => readFull src' total got
    | (.eof, src') => (none, src')
    | (.failed, src') => (none, src')
  else (some got, src)
termination_by src.size
decreasing_by
  · simpa using Source.size_read (by omega) _h
  · simpa using Source.size_read (by omega) _h

/-- What is left to happen at a writing end with `d` still to be written. -/
def Sink.size (snk : Sink α) (d : List α) : Nat := snk.answers.length + d.length

theorem Sink.size_write {snk snk' : Sink α} {d : List α} {r : Result Nat} (hd : d ≠ [])
    (h : snk.write d = (r, snk')) :
    (∀ n, r = .done n → snk'.size (d.drop n) < snk.size d) ∧
      (r = .eintr → snk'.size d < snk.size d) := by
  have hpos := List.length_pos_iff.mpr hd
  rcases snk with ⟨wire, answers⟩
  rcases answers with _ | ⟨_ | _ | _, as⟩ <;> obtain ⟨rfl, rfl⟩ := Prod.mk.inj h
  · refine ⟨fun n hn => ?_, fun he => by cases he⟩
    obtain rfl := Result.done.inj hn
    simpa [size] using hpos
  · refine ⟨fun n hn => ?_, fun he => by cases he⟩
    simp only [size, List.length_drop, List.length_cons]
    omega
  · refine ⟨fun n hn => (by cases hn), fun _ => ?_⟩
    simp [size]
  · exact ⟨fun n hn => (by cases hn), fun he => (by cases he)⟩

/-- The writing loop: `while (sent < total)`, retrying after `EINTR`. -/
def writeFull (snk : Sink α) (d : List α) : Bool × Sink α :=
  if _hd : d = [] then (true, snk)
  else match _h : snk.write d with
    | (.done n, snk') => writeFull snk' (d.drop n)
    | (.eintr, snk') => writeFull snk' d
    | (.eof, snk') => (false, snk')
    | (.failed, snk') => (false, snk')
termination_by snk.size d
decreasing_by
  · exact (Sink.size_write _hd _h).1 _ rfl
  · exact (Sink.size_write _hd _h).2 rfl

/-- No call fails with an error other than `EINTR`. -/
def Steady (as : List Answer) : Prop := .failed ∉ as

theorem Steady.tail {a : Answer} {as : List Answer} (h : Steady (a :: as)) : Steady as :=
  fun hm => h (List.mem_cons_of_mem _ hm)

/-- One call of a steady kernel: it is interrupted and moves nothing, or it moves
a non-empty part of the request, or the stream is at its end. -/
theorem Source.read_steady {src src' : Source α} {n : Nat} {r : Result (List α)} (hn : 0 < n)
    (hs : Steady src.answers) (h : src.read n = (r, src')) :
    Steady src'.answers ∧
      (r = .eintr ∧ src'.inbound = src.inbound ∨
        r = .eof ∧ src.inbound = [] ∧ src'.inbound = [] ∨
        ∃ k, 0 < k ∧ k ≤ n ∧ k ≤ src.inbound.length ∧ r = .done (src.inbound.take k) ∧
          src'.inbound = src.inbound.drop k) := by
  rcases src with ⟨inbound, answers⟩
  have htake : ∀ {m as}, 0 < m → m ≤ n → (⟨inbound, answers⟩ : Source α).take m as = (r, src') →
      r = .eof ∧ inbound = [] ∧ src'.inbound = [] ∧ src'.answers = as ∨
      ∃ k, 0 < k ∧ k ≤ n ∧ k ≤ inbound.length ∧ r = .done (inbound.take k) ∧
        src'.inbound = inbound.drop k ∧ src'.answers = as := by
    intro m as hm hmn ht
    unfold take at ht
    split at ht
    · next he =>
      obtain ⟨rfl, rfl⟩ := Prod.mk.inj ht
      exact Or.inl ⟨rfl, List.isEmpty_iff.mp he, rfl, rfl⟩
    · next he =>
      obtain ⟨rfl, rfl⟩ := Prod.mk.inj ht
      have hpos : 0 < inbound.length := by
        rw [List.length_pos_iff]
        simpa [List.isEmpty_iff] using he
      refine Or.inr ⟨min m inbound.length, by omega, by omega, by omega, ?_, ?_, rfl⟩
      · rw [← List.take_eq_take_min]
      · exact (List.drop_eq_drop_min ..).trans (by rw [Nat.min_comm])
  rcases answers with _ | ⟨k | _ | _, as⟩
  · rcases htake hn (Nat.le_refl _) h with ⟨rfl, h1, h2, h3⟩ | ⟨k, h1, h2, h3, h4, h5, h6⟩
    · exact ⟨h3 ▸ hs, Or.inr (Or.inl ⟨rfl, h1, h2⟩)⟩
    · exact ⟨h6 ▸ hs, Or.inr (Or.inr ⟨k, h1, h2, h3, h4, h5⟩)⟩
  · rcases htake (by omega) (Nat.min_le_right _ _) h with
      ⟨rfl, h1, h2, h3⟩ | ⟨k, h1, h2, h3, h4, h5, h6⟩
    · exact ⟨h3 ▸ hs.tail, Or.inr (Or.inl ⟨rfl, h1, h2⟩)⟩
    · exact ⟨h6 ▸ hs.tail, Or.inr (Or.inr ⟨k, h1, h2, h3, h4, h5⟩)⟩
  · obtain ⟨rfl, rfl⟩ := Prod.mk.inj h
    exact ⟨hs.tail, Or.inl ⟨rfl, rfl⟩⟩
  · exact absurd List.mem_cons_self hs

/-- One turn of the reading loop. -/
theorem readFull_turn {src src' : Source α} {total : Nat} {got : List α}
    {r : Result (List α)} (hlt : got.length < total)
    (h : src.read (total - got.length) = (r, src')) :
    readFull src total got = match r with
      | .done d => readFull src' total (got ++ d)
      | .eintr => readFull src' total got
      | _ => (none, src') := by
  rw [readFull, dif_pos hlt]
  split <;> next h' =>
    obtain ⟨rfl, rfl⟩ := Prod.mk.inj (h.symm.trans h')
    rfl

/-- With a steady kernel, reading to a length of `total` delivers exactly the next
part of the stream, and fails precisely when the stream ends before. -/
theorem readFull_spec (src : Source α) (total : Nat) (got : List α)
    (hs : Steady src.answers) (hgot : got.length ≤ total) :
    (readFull src total got).1 =
      (if total - got.length ≤ src.inbound.length
        then some (got ++ src.inbound.take (total - got.length)) else none) ∧
    (readFull src total got).2.inbound = src.inbound.drop (total - got.length) ∧
    Steady (readFull src total got).2.answers := by
  induction hm : src.size using Nat.strongRecOn generalizing src got with
  | ind m ih =>
    by_cases hlt : got.length < total
    · obtain ⟨⟨r, src'⟩, h⟩ : ∃ x, src.read (total - got.length) = x := ⟨_, rfl⟩
      rw [readFull_turn hlt h]
      have hsize := Source.size_read (by omega) h
      obtain ⟨hs', ⟨rfl, hin⟩ | ⟨rfl, hnil, hnil'⟩ | ⟨k, hk, hkn, hkl, rfl, hin⟩⟩ :=
        Source.read_steady (by omega) hs h
      · have hlt' : src'.size < m := by simpa [hm] using hsize
        simpa only [hin] using ih _ hlt' src' got hs' hgot rfl
      · have hpos : ¬ total - got.length ≤ 0 := by omega
        simp only [hnil, hnil', List.length_nil, if_neg hpos, List.drop_nil, hs', and_self]
      · have hlt' : src'.size < m := by simpa [hm] using hsize
        have hlen : (got ++ src.inbound.take k).length = got.length + k := by
          simp only [List.length_append, List.length_take]
          omega
        have hsplit : total - got.length = k + (total - (got.length + k)) := by omega
        obtain ⟨h1, h2, h3⟩ := ih _ hlt' src' (got ++ src.inbound.take k) hs' (by omega) rfl
        refine ⟨?_, ?_, h3⟩
        · rw [h1, hlen, hin]
          by_cases hc : total - got.length ≤ src.inbound.length
          · rw [if_pos hc, if_pos (by simp only [List.length_drop]; omega), List.append_assoc,
              ← List.take_add, ← hsplit]
          · rw [if_neg hc, if_neg (by simp only [List.length_drop]; omega)]
        · rw [h2, hlen, hin, List.drop_drop, ← hsplit]
    · have hz : total - got.length = 0 := by omega
      rw [readFull, dif_neg hlt, hz]
      simpa using hs

/-- What a call delivers is the front of the data still to come. -/
theorem Source.read_done {src src' : Source α} {n : Nat} {d : List α}
    (h : src.read n = (.done d, src')) : d.length ≤ n ∧ src.inbound = d ++ src'.inbound := by
  have htake : ∀ {m as}, m ≤ n → src.take m as = (.done d, src') →
      d.length ≤ n ∧ src.inbound = d ++ src'.inbound := by
    intro m as hm ht
    unfold Source.take at ht
    split at ht
    · cases (Prod.mk.inj ht).1
    · obtain ⟨hd, rfl⟩ := Prod.mk.inj ht
      obtain rfl := Result.done.inj hd
      refine ⟨?_, (List.take_append_drop m src.inbound).symm⟩
      rw [List.length_take]
      omega
  unfold Source.read at h
  split at h
  · exact htake (Nat.le_refl _) h
  · exact htake (Nat.min_le_right _ _) h
  · cases (Prod.mk.inj h).1
  · cases (Prod.mk.inj h).1

/-- Whatever the kernel does, the reading loop only succeeds with the front of the stream. -/
theorem readFull_eq_some {src src' : Source α} {total : Nat} {got g : List α}
    (hgot : got.length ≤ total) (h : readFull src total got = (some g, src')) :
    ∃ d, g = got ++ d ∧ g.length = total ∧ src.inbound = d ++ src'.inbound := by
  fun_induction readFull src total got with
  | case1 src got hlt d src₁ hread ih =>
    obtain ⟨hd, hin⟩ := Source.read_done hread
    obtain ⟨e, rfl, hlen, he⟩ := ih (by rw [List.length_append]; omega) h
    exact ⟨d ++ e, List.append_assoc .., hlen, by rw [hin, he, List.append_assoc]⟩
  | case2 src got hlt src₁ hread ih =>
    have hin : src₁.inbound = src.inbound := by
      rcases src with ⟨inbound, _ | ⟨_ | _ | _, as⟩⟩
      · simp only [Source.read, Source.take] at hread
        split at hread <;> cases (Prod.mk.inj hread).1
      · simp only [Source.read, Source.take] at hread
        split at hread <;> cases (Prod.mk.inj hread).1
      · rw [← (Prod.mk.inj hread).2]
      · cases (Prod.mk.inj hread).1
    rw [← hin]
    exact ih hgot h
  | case3 => cases (Prod.mk.inj h).1
  | case4 => cases (Prod.mk.inj h).1
  | case5 src got hge =>
    obtain ⟨hg, rfl⟩ := Prod.mk.inj h
    obtain rfl := Option.some.inj hg
    exact ⟨[], (List.append_nil _).symm, by omega, rfl⟩

/-- One turn of the writing loop. -/
theorem writeFull_turn {snk snk' : Sink α} {d : List α} {r : Result Nat} (hd : d ≠ [])
    (h : snk.write d = (r, snk')) :
    writeFull snk d = match r with
      | .done n => writeFull snk' (d.drop n)
      | .eintr => writeFull snk' d
      | _ => (false, snk') := by
  rw [writeFull, dif_neg hd]
  split <;> next h' =>
    obtain ⟨rfl, rfl⟩ := Prod.mk.inj (h.symm.trans h')
    rfl

/-- With a steady kernel, writing puts the whole list on the wire and succeeds. -/
theorem writeFull_spec (snk : Sink α) (d : List α) (hs : Steady snk.answers) :
    (writeFull snk d).1 = true ∧ (writeFull snk d).2.wire = snk.wire ++ d ∧
      Steady (writeFull snk d).2.answers := by
  induction hm : snk.size d using Nat.strongRecOn generalizing snk d with
  | ind m ih =>
    by_cases hd : d = []
    · subst hd
      rw [writeFull, dif_pos rfl]
      simpa using hs
    · rcases snk with ⟨wire, _ | ⟨k | _ | _, as⟩⟩
      · have hw : (⟨wire, []⟩ : Sink α).write d = (.done d.length, ⟨wire ++ d, []⟩) := rfl
        have hlt := (Sink.size_write hd hw).1 _ rfl
        rw [writeFull_turn hd hw]
        simpa using ih _ (hm ▸ hlt) ⟨wire ++ d, []⟩ (d.drop d.length) hs rfl
      · have hw : (⟨wire, .chunk k :: as⟩ : Sink α).write d =
            (.done (min (k + 1) d.length), ⟨wire ++ d.take (k + 1), as⟩) := rfl
        have hlt := (Sink.size_write hd hw).1 _ rfl
        have hcut : wire ++ d.take (k + 1) ++ d.drop (min (k + 1) d.length) = wire ++ d := by
          rw [List.append_assoc, ← List.drop_eq_drop_min, List.take_append_drop]
        obtain ⟨h1, h2, h3⟩ := ih _ (hm ▸ hlt) ⟨wire ++ d.take (k + 1), as⟩ _ hs.tail rfl
        rw [writeFull_turn hd hw]
        exact ⟨h1, h2.trans hcut, h3⟩
      · have hw : (⟨wire, .eintr :: as⟩ : Sink α).write d = (.eintr, ⟨wire, as⟩) := rfl
        have hlt := (Sink.size_write hd hw).2 rfl
        rw [writeFull_turn hd hw]
        exact ih _ (hm ▸ hlt) ⟨wire, as⟩ d hs.tail rfl
      · exact absurd List.mem_cons_self hs

end Channel
