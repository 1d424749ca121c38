import ChatSystem.Core.Join
import ChatSystem.Server.Replies

/-!
# The user list

What the servers write into an entry keeps its name terminated and its status one of the
three, so that no item of a user list is cut and ten of them fit the list.
-/

namespace ChatSystem

open Bytes Join

/-- A property of entries kept by everything the servers write into one. -/
structure EntryRules (P : Entry → Prop) : Prop where
  zero : P Entry.zero
  setName : ∀ {e : Entry} (u : List UInt8), P e → P (e.setName u)
  activate : ∀ {e : Entry}, P e → P e.activate
  clear : ∀ {e : Entry}, P e → P e.clear
  setStatus : ∀ {e : Entry} (payload : List UInt8), P e → P (e.setStatus (scanStatus payload))

/-- An entry the user list can show: a terminated name and a status with a name. -/
structure Entry.Listable (e : Entry) : Prop where
  terminated : e.Terminated
  status_le : e.status ≤ statusAway

theorem scanStatus_le (payload : List UInt8) : scanStatus payload ≤ statusAway := by
  unfold scanStatus
  split
  · decide
  · split <;> decide

/-- Every write leaves a listable entry. -/
theorem entryRules_listable : EntryRules Entry.Listable where
  zero := ⟨rfl, by decide⟩
  setName u h := ⟨Entry.terminated_setName h.terminated u, h.status_le⟩
  activate h := ⟨h.terminated, Nat.zero_le _⟩
  clear {e} h := ⟨e.terminated_zero_name, h.status_le⟩
  setStatus payload h := ⟨h.terminated, scanStatus_le payload⟩

/-! ## The items -/

/-- `!active || !username[0]` fails. -/
def Entry.shown (e : Entry) : Bool := e.active && !e.name.isEmpty

/-- The test of the loop. -/
theorem Entry.not_shown (e : Entry) : (!e.active || e.name.isEmpty) = !e.shown := by
  rw [shown, Bool.not_and, Bool.not_not]

/-- `"%s(%s)"` of a name and a status. -/
def Entry.item (e : Entry) : List UInt8 := e.name ++ ascii "(" ++ statusName e.status ++ ascii ")"

/-- The entries of a user list, in slot order. -/
def shownEntries (table : Slot → Entry) : List Entry :=
  ((List.finRange maxClients).map table).filter Entry.shown

/-- The text of the statuses. -/
theorem statusName_spec {status : Nat} (h : status ≤ statusAway) :
    (statusName status).length ≤ 9 ∧ ∀ b ∈ statusName status, b ≠ 0 := by
  have hs : status = statusAvailable ∨ status = statusBusy ∨ status = statusAway := by
    simp only [statusAvailable, statusBusy, statusAway] at h ⊢
    omega
  rcases hs with rfl | rfl | rfl <;> exact ⟨by decide, by simp [statusName, ascii, statusAvailable,
    statusBusy, statusAway]⟩

namespace Entry.Listable

variable {e : Entry} (h : e.Listable)
include h

/-- A terminated name has at most 31 bytes. -/
theorem length_name_le : e.name.length ≤ 31 := length_cstr_le_of_drop h.terminated

/-- An item has at most 42 bytes. -/
theorem length_item_le : e.item.length ≤ 42 := by
  have hname := h.length_name_le
  have hstatus := (statusName_spec h.status_le).1
  have hopen : (ascii "(").length = 1 := rfl
  have hclose : (ascii ")").length = 1 := rfl
  simp only [Entry.item, List.length_append]
  omega

/-- An item is a terminated string of its own. -/
theorem cstr_item : cstr e.item = e.item := by
  apply cstr_of_forall_ne
  intro b hb
  simp only [Entry.item, List.mem_append] at hb
  rcases hb with ((hb | hb) | hb) | hb
  · exact mem_cstr hb
  · rw [List.mem_singleton.mp hb]
    decide
  · exact (statusName_spec h.status_le).2 b hb
  · rw [List.mem_singleton.mp hb]
    decide

/-- One turn of the loop, with 44 bytes left in the list. -/
theorem listStep_eq (hs : e.shown = true) {list : List UInt8} (first : Bool)
    (hroom : list.length + 44 < maxPayloadLen) :
    listStep (list, first) e =
      ((if first then list else list ++ ascii ", ") ++ e.item, false) := by
  have hmax : maxPayloadLen = 1024 := rfl
  have hitem := h.length_item_le
  have hskip : (!e.active || e.name.isEmpty) = false := by
    rw [e.not_shown, hs, Bool.not_true]
  have hentry : snprintf 64 (e.name ++ ascii "(" ++ statusName e.status ++ ascii ")") = e.item :=
    List.take_of_length_le (by change e.item.length ≤ _; omega)
  have hsep : (cstr (ascii ", ")).take (maxPayloadLen - list.length - 1) = ascii ", " := by
    have htwo : (ascii ", ").length = 2 := rfl
    rw [cstr_of_forall_ne (by simp [ascii]), List.take_of_length_le]
    omega
  have hstep : (if first then list
      else strncat list (ascii ", ") (maxPayloadLen - list.length - 1)) =
        if first then list else list ++ ascii ", " := by
    rw [strncat, hsep]
  have hlen : (if first then list else list ++ ascii ", ").length ≤ list.length + 2 := by
    split
    · omega
    · rw [List.length_append]
      exact Nat.le_refl _
  simp only [listStep, hskip, Bool.false_eq_true, if_false, hentry, hstep]
  rw [strncat, h.cstr_item, List.take_of_length_le (by omega)]

end Entry.Listable

/-! ## The list -/

/-- The loop appends the items of the shown entries, each behind a separator. -/
theorem foldl_listStep {entries : List Entry} (h : ∀ e ∈ entries, e.Listable)
    (items : List (List UInt8))
    (hroom : ((ascii ", ").intercalate items).length + 44 * entries.length < maxPayloadLen) :
    (entries.foldl listStep ((ascii ", ").intercalate items, items.isEmpty)).1 =
      (ascii ", ").intercalate (items ++ (entries.filter Entry.shown).map Entry.item) := by
  induction entries generalizing items with
  | nil => simp
  | cons e entries ih =>
    have he := h e List.mem_cons_self
    have hrest : ∀ e ∈ entries, e.Listable := fun e hm => h e (List.mem_cons_of_mem _ hm)
    rw [List.length_cons] at hroom
    cases hs : e.shown with
    | false =>
      have hskip : (!e.active || e.name.isEmpty) = true := by
        rw [e.not_shown, hs, Bool.not_false]
      rw [List.foldl_cons, List.filter_cons_of_neg (by simp [hs]), listStep, if_pos hskip]
      exact ih hrest items (by omega)
    | true =>
      have hnext : ((ascii ", ").intercalate items).length + 44 < maxPayloadLen := by omega
      have hjoin := intercalate_concat (ascii ", ") items e.item
      have hstep : (if items.isEmpty then (ascii ", ").intercalate items
          else (ascii ", ").intercalate items ++ ascii ", ") ++ e.item =
            (ascii ", ").intercalate (items ++ [e.item]) := by
        rw [hjoin]
        congr 1
        split
        · next hnil => rw [List.isEmpty_iff.mp hnil, List.intercalate_nil]
        · rfl
      have hgrown : ((ascii ", ").intercalate (items ++ [e.item])).length ≤
          ((ascii ", ").intercalate items).length + 44 := by
        have htwo : (ascii ", ").length = 2 := rfl
        have hitem := he.length_item_le
        rw [← hstep, List.length_append]
        split
        · omega
        · rw [List.length_append]
          omega
      rw [List.foldl_cons, List.filter_cons_of_pos hs, he.listStep_eq hs _ hnext, hstep,
        List.map_cons, ← List.singleton_append (l := List.map _ _), ← List.append_assoc]
      have hempty : (items ++ [e.item]).isEmpty = false := by simp
      rw [← hempty]
      exact ih hrest _ (by omega)

/-- Nothing of a user list is cut. -/
theorem listUsers_eq {table : Slot → Entry} (h : ∀ i, (table i).Listable) :
    listUsers table = (ascii ", ").intercalate ((shownEntries table).map Entry.item) := by
  have hall : ∀ e ∈ (List.finRange maxClients).map table, e.Listable := by
    intro e he
    obtain ⟨i, -, rfl⟩ := List.mem_map.mp he
    exact h i
  have hroom : 44 * ((List.finRange maxClients).map table).length < maxPayloadLen := by
    rw [List.length_map, List.length_finRange]
    decide
  have hlist := foldl_listStep hall [] (by rw [List.intercalate_nil, List.length_nil]; omega)
  rw [List.nil_append] at hlist
  exact hlist

/-- The items fit the payload of the reply. -/
theorem payloadStr_userList (now : UInt64) (m : Message) {table : Slot → Entry}
    (h : ∀ i, (table i).Listable) :
    (userList now m table).payloadStr =
      (ascii ", ").intercalate ((shownEntries table).map Entry.item) := by
  have hitems : ∀ x ∈ (shownEntries table).map Entry.item, ∃ i, x = (table i).item := by
    intro x hx
    obtain ⟨e, he, rfl⟩ := List.mem_map.mp hx
    obtain ⟨i, -, rfl⟩ := List.mem_map.mp (List.mem_of_mem_filter he)
    exact ⟨i, rfl⟩
  have hzero : ∀ b ∈ listUsers table, b ≠ 0 := by
    intro b hb
    rw [listUsers_eq h] at hb
    rcases mem_intercalate hb with hb | ⟨x, hx, hb⟩
    · rcases List.mem_cons.mp hb with rfl | hb
      · decide
      · rw [List.mem_singleton.mp hb]
        decide
    · obtain ⟨i, rfl⟩ := hitems x hx
      rw [← (h i).cstr_item] at hb
      exact mem_cstr hb
  have hlen : (listUsers table).length ≤ 44 * maxClients := by
    rw [listUsers_eq h]
    refine (length_intercalate_le (n := 44) ?_).trans ?_
    · intro x hx
      obtain ⟨i, rfl⟩ := hitems x hx
      exact Nat.add_le_add_right (h i).length_item_le 2
    · apply Nat.mul_le_mul_left
      rw [List.length_map]
      refine (List.length_filter_le _ _).trans ?_
      rw [List.length_map, List.length_finRange]
  rw [userList, payloadStr_makeMessage, cstr_of_forall_ne hzero,
    List.take_of_length_le (hlen.trans (by decide)), listUsers_eq h]

end ChatSystem
