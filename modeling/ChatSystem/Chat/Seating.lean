import ChatSystem.Chat.Departures
import ChatSystem.Chat.Hall
import ChatSystem.Epoll.Refinement
import ChatSystem.Fork.Refinement
import ChatSystem.Thread.Shifts

/-!
# Rooms are halls

Where the connections of a room sit in its table is nobody's business: a room does what the
hall does that has its connections as guests, and what it sends to a connection is what the
hall tells it.
-/

namespace ChatSystem.Chat

open Bytes Reactive

/-- The item of a user list for a name and a status. -/
def itemOf (u : List UInt8 × Nat) : List UInt8 :=
  u.1 ++ ascii "(" ++ statusName u.2 ++ ascii ")"

/-- A message that says what a line says. -/
def Line.ReadAs : Line → Message → Prop
  | .message m, r => r = canonical m
  | .online now m users, r => ∃ entries : List (List UInt8 × Nat), entries.Nodup ∧
      (∀ u, u ∈ entries ↔ u ∈ users) ∧ r = canonical (makeMessage now .userList serverName
        m.senderStr ((ascii ", ").intercalate (entries.map itemOf)))

/-- The guest of a slot in use. -/
def Entry.guest (e : Entry) : Guest := if e.active then some (e.name, e.status) else none

/-- The connections of a room sit in a hall. -/
structure Seats (room : Room) (hall : Hall) : Prop where
  seated : ∀ s c, room.conn s = some c → hall.guest c = some (Entry.guest (room.table s))
  free : ∀ c, (∀ s, room.conn s ≠ some c) → hall.guest c = none
  accepted : hall.accepted = room.accepted
  history : hall.history = room.history
  status_le : ∀ s, (room.table s).status ≤ statusAway

/-- Every connection is sent what it is told. -/
def Tells (t : Talk) (out : List Sent) : Prop :=
  ∀ d, List.Forall₂ Line.ReadAs (t d) (framesTo d out)

/-- The hall as a handler of events. -/
noncomputable def serving (fl : Flavour) (hall : Hall) (e : Event) : Hall × List Talk :=
  ((hall.serve fl e).1, [(hall.serve fl e).2])

/-- What the connections are told at a list of events. -/
noncomputable def toldAt (fl : Flavour) (history : History) (es : List Event) : Talk :=
  fun d => (outputs (serving fl) (.empty history) es).flatMap (· d)

/-- The hall behind a list of events. -/
noncomputable def hallAfter (fl : Flavour) (history : History) (es : List Event) : Hall :=
  after (serving fl) (.empty history) es

variable {fl : Flavour} {room : Room} {hall : Hall} {s t : Slot} {c d : Nat} {env : Env}
  {m : Message} {u : List UInt8} {out out' : List Sent} {talk talk' : Talk}

/-! ## Guests and slots -/

namespace Seats

variable (h : Seats room hall) (hok : Tidy room)
include h

theorem guest_eq_some {g : Guest} (hg : hall.guest c = some g) :
    ∃ s, room.conn s = some c ∧ g = Entry.guest (room.table s) := by
  by_cases hs : ∃ s, room.conn s = some c
  · obtain ⟨s, hs⟩ := hs
    rw [h.seated s c hs] at hg
    exact ⟨s, hs, (Option.some.inj hg).symm⟩
  · rw [h.free c fun s hc => hs ⟨s, hc⟩] at hg
    cases hg

/-- Who is online is who is active, under the same name. -/
theorem guest_iff {v : Nat} : hall.guest c = some (some (u, v)) ↔
    ∃ s, room.conn s = some c ∧ (room.table s).active = true ∧ (room.table s).name = u ∧
      (room.table s).status = v := by
  constructor
  · intro hg
    obtain ⟨s, hs, he⟩ := h.guest_eq_some hg
    rw [Entry.guest] at he
    split at he
    · next ha =>
      obtain ⟨rfl, rfl⟩ := Prod.mk.inj (Option.some.inj he)
      exact ⟨s, hs, ha, rfl, rfl⟩
    · cases he
  · rintro ⟨s, hs, ha, rfl, rfl⟩
    rw [h.seated s c hs, Entry.guest, if_pos ha]

theorem online_iff : hall.Online c u ↔
    ∃ s, room.conn s = some c ∧ (room.table s).active = true ∧ (room.table s).name = u := by
  constructor
  · rintro ⟨v, hv⟩
    obtain ⟨s, hs, ha, hu, -⟩ := h.guest_iff.mp hv
    exact ⟨s, hs, ha, hu⟩
  · rintro ⟨s, hs, ha, hu⟩
    exact ⟨_, h.guest_iff.mpr ⟨s, hs, ha, hu, rfl⟩⟩

theorem member_iff : hall.Member c ↔ ∃ s, room.conn s = some c ∧ (room.table s).active = true := by
  constructor
  · rintro ⟨u, hu⟩
    obtain ⟨s, hs, ha, -⟩ := h.online_iff.mp hu
    exact ⟨s, hs, ha⟩
  · rintro ⟨s, hs, ha⟩
    exact ⟨_, h.online_iff.mpr ⟨s, hs, ha, rfl⟩⟩

include hok in
/-- The connection of a slot is a member while the slot is active. -/
theorem member_slot (hs : room.conn s = some c) :
    hall.Member c ↔ (room.table s).active = true := by
  rw [h.member_iff]
  constructor
  · rintro ⟨t, ht, ha⟩
    rwa [hok.apart s t c hs ht]
  · exact fun ha => ⟨s, hs, ha⟩

include hok in
/-- The name of a connection is the name in its slot. -/
theorem name_slot (hs : room.conn s = some c) : hall.name c = (room.table s).name := by
  rw [Hall.name, h.seated s c hs, Entry.guest]
  cases ha : (room.table s).active with
  | true => rfl
  | false => exact (hok.name_of_inactive ha).symm

include hok in
/-- A search for a name finds the slot of the connection online under it. -/
theorem holds_iff (hu : u.length ≤ maxUsernameLen) :
    (∃ s, (room.table s).holds u = true) ↔ ∃ d, hall.Online d (cstr u) := by
  constructor
  · rintro ⟨s, hs⟩
    obtain ⟨ha, hn⟩ := (Entry.holds_iff_cstr hu).mp hs
    obtain ⟨d, hd⟩ := hok.conn_of_active ha
    exact ⟨d, h.online_iff.mpr ⟨s, hd, ha, hn⟩⟩
  · rintro ⟨d, hd⟩
    obtain ⟨s, -, ha, hn⟩ := h.online_iff.mp hd
    exact ⟨s, (Entry.holds_iff_cstr hu).mpr ⟨ha, hn⟩⟩

include hok in
/-- The servers' test for a name in use. -/
theorem taken_iff (hs : room.conn s = some c) (hu : ValidName u) :
    room.taken fl s u = true ↔ hall.Taken fl c u := by
  have hholds : ∀ t, (room.table t).holds u = true ↔
      (room.table t).active = true ∧ (room.table t).name = u := fun t => Entry.holds_iff hu
  constructor
  · intro ht
    cases hfind : findName room.table u with
    | none => cases fl <;> simp [Room.taken, hfind] at ht
    | some t =>
      obtain ⟨ha, hn⟩ := (hholds t).mp (findName_eq_some hfind)
      obtain ⟨d, hd⟩ := hok.conn_of_active ha
      refine ⟨d, h.online_iff.mpr ⟨t, hd, ha, hn⟩, ?_⟩
      rintro rfl rfl
      obtain rfl := hok.apart s t d hs hd
      simp [Room.taken, hfind] at ht
  · rintro ⟨d, hd, hfl⟩
    obtain ⟨t, htd, ha, hn⟩ := h.online_iff.mp hd
    by_contra hfree
    have hts : t = s := by
      by_contra hne
      exact hok.free_of_not_taken hu (by simpa using hfree) hne ha hn
    subst hts
    obtain rfl := Option.some.inj (hs.symm.trans htd)
    have hfind : findName room.table u ≠ none := fun hnone => by
      have := findName_eq_none hnone t
      rw [(hholds t).mpr ⟨ha, hn⟩] at this
      cases this
    cases fl with
    | fork => exact hfl rfl rfl
    | thread => exact hfree (Option.isSome_iff_ne_none.mpr hfind)
    | epoll => exact hfree (Option.isSome_iff_ne_none.mpr hfind)

include hok in
/-- There is a seat exactly if there is a slot. -/
theorem ncard_lt_iff : hall.seats.ncard < maxClients ↔ ∃ s, room.conn s = none := by
  classical
  have himage : hall.seats = ((Finset.univ.filter fun s => room.conn s ≠ none).image
      fun s => (room.conn s).getD 0 : Finset Nat) := by
    ext d
    simp only [Hall.seats, Set.mem_ofPred_eq, Finset.coe_image, Finset.coe_filter,
      Finset.mem_univ, true_and, Set.mem_image]
    constructor
    · intro hd
      obtain ⟨g, hg⟩ := Option.ne_none_iff_exists'.mp hd
      obtain ⟨s, hs, -⟩ := h.guest_eq_some hg
      exact ⟨s, by rw [hs]; exact Option.some_ne_none _, by rw [hs]; rfl⟩
    · rintro ⟨s, hs, rfl⟩
      obtain ⟨c, hc⟩ := Option.ne_none_iff_exists'.mp hs
      rw [hc, Option.getD_some, h.seated s c hc]
      exact Option.some_ne_none _
  have hcard : hall.seats.ncard = (Finset.univ.filter fun s => room.conn s ≠ none).card := by
    rw [himage, Set.ncard_coe_finset, Finset.card_image_of_injOn]
    intro s hs t ht he
    obtain ⟨c, hc⟩ := Option.ne_none_iff_exists'.mp (Finset.mem_filter.mp hs).2
    obtain ⟨d, hd⟩ := Option.ne_none_iff_exists'.mp (Finset.mem_filter.mp ht).2
    simp only [hc, hd, Option.getD_some] at he
    exact hok.apart s t c hc (he ▸ hd)
  rw [hcard]
  constructor
  · intro hlt
    by_contra hall
    push Not at hall
    rw [Finset.filter_true_of_mem fun s _ => hall s, Finset.card_univ, Fintype.card_fin] at hlt
    exact Nat.lt_irrefl _ hlt
  · rintro ⟨s, hs⟩
    have hlt : (Finset.univ.filter fun s => room.conn s ≠ none) ⊂ Finset.univ := by
      refine Finset.filter_ssubset.mpr ⟨s, Finset.mem_univ s, ?_⟩
      simpa using hs
    simpa using Finset.card_lt_card hlt

include hok

/-! ## Changes -/

/-- The login data of a slot in use. -/
theorem setEntry (hs : room.conn s = some c) {e : Entry} (he : e.status ≤ statusAway)
    (hg : hall.guest c ≠ none) {g : Guest} (ha : hall.Admits c g) (hge : g = Entry.guest e) :
    Seats (room.setEntry s e) (hall.become c g hg ha) := by
  refine ⟨?_, ?_, h.accepted, h.history, ?_⟩
  · intro t d ht
    change Function.update hall.guest c (some g) d = _
    rw [table_setEntry]
    by_cases hts : t = s
    · subst hts
      obtain rfl := Option.some.inj (hs.symm.trans ht)
      rw [Function.update_self, Function.update_self, hge]
    · have hdc : d ≠ c := fun hdc => hts (hok.apart t s c (hdc ▸ ht) hs)
      rw [Function.update_of_ne hdc, Function.update_of_ne hts]
      exact h.seated t d ht
  · intro d hd
    have hdc : d ≠ c := fun hdc => hd s (hdc ▸ hs)
    change Function.update hall.guest c (some g) d = _
    rw [Function.update_of_ne hdc]
    exact h.free d hd
  · intro t
    rw [table_setEntry]
    by_cases hts : t = s
    · rw [hts, Function.update_self]
      exact he
    · rw [Function.update_of_ne hts]
      exact h.status_le t

/-- A slot is released. -/
theorem release (hs : room.conn s = some c) (fl : Flavour) :
    Seats (room.release fl s) (hall.leave c) := by
  refine ⟨?_, ?_, h.accepted, h.history, ?_⟩
  · intro t d ht
    have hts : t ≠ s := by
      rintro rfl
      rw [conn_release, Function.update_self] at ht
      cases ht
    rw [conn_release, Function.update_of_ne hts] at ht
    have hdc : d ≠ c := fun hdc => hts (hok.apart t s c (hdc ▸ ht) hs)
    change Function.update hall.guest c none d = _
    rw [table_release, Function.update_of_ne hdc, Function.update_of_ne hts]
    exact h.seated t d ht
  · intro d hd
    change Function.update hall.guest c none d = _
    by_cases hdc : d = c
    · rw [hdc, Function.update_self]
    · rw [Function.update_of_ne hdc]
      refine h.free d fun t ht => hd t ?_
      have hts : t ≠ s := by
        rintro rfl
        exact hdc (Option.some.inj (ht.symm.trans hs))
      rwa [conn_release, Function.update_of_ne hts]
  · intro t
    rw [table_release]
    by_cases hts : t = s
    · rw [hts, Function.update_self]
      cases fl
      · exact h.status_le s
      · exact h.status_le s
      · exact Nat.zero_le _
    · rw [Function.update_of_ne hts]
      exact h.status_le t

/-- A slot is filled. -/
theorem fill (hs : room.conn s = none) (fl : Flavour) (hlt : hall.seats.ncard < maxClients) :
    Seats (room.fill fl s) (hall.enter hlt) := by
  refine ⟨?_, ?_, congrArg (· + 1) h.accepted, h.history, ?_⟩
  · intro t d ht
    change Function.update hall.guest hall.accepted (some none) d = _
    rw [table_fill]
    by_cases hts : t = s
    · subst hts
      rw [conn_fill, Function.update_self] at ht
      obtain rfl := Option.some.inj ht
      rw [h.accepted, Function.update_self, Function.update_self, Entry.guest, if_neg]
      rw [(hok.filled_spec hs fl).2.1]
      exact Bool.false_ne_true
    · rw [conn_fill, Function.update_of_ne hts] at ht
      have hda : d ≠ hall.accepted := by
        rw [h.accepted]
        exact (hok.bound t d ht).ne
      rw [Function.update_of_ne hda, Function.update_of_ne hts]
      exact h.seated t d ht
  · intro d hd
    have hda : d ≠ hall.accepted := by
      rintro rfl
      refine hd s ?_
      rw [conn_fill, Function.update_self, h.accepted]
    change Function.update hall.guest hall.accepted (some none) d = _
    rw [Function.update_of_ne hda]
    refine h.free d fun t ht => hd t ?_
    have hts : t ≠ s := by
      rintro rfl
      rw [hs] at ht
      cases ht
    rwa [conn_fill, Function.update_of_ne hts]
  · intro t
    rw [table_fill]
    by_cases hts : t = s
    · rw [hts, Function.update_self]
      cases fl
      · exact h.status_le s
      · exact Nat.zero_le _
      · exact Nat.zero_le _
    · rw [Function.update_of_ne hts]
      exact h.status_le t

omit hok in
theorem save (env : Env) (m : Message) (receiver : List UInt8) :
    Seats (room.save env m receiver) (hall.save env m receiver) :=
  ⟨h.seated, h.free, h.accepted, congrArg (·.save env.host m receiver) h.history, h.status_le⟩

end Seats

/-! ## Talk -/

theorem Tells.silence : Tells silence [] := fun _ => .nil

theorem Tells.andThen (h : Tells talk out) (h' : Tells talk' out') :
    Tells (talk.andThen talk') (out ++ out') := by
  intro d
  rw [framesTo_append]
  exact List.rel_append (h d) (h' d)

open Classical in
/-- A message for some slots reaches each of their connections once. -/
theorem framesTo_copies (hok : Tidy room) {slots : List Slot} (hn : slots.Nodup) (via : Via)
    (m : Message) (d : Nat) : framesTo d (room.copies slots via m) =
      if ∃ i ∈ slots, room.conn i = some d then [canonical m] else [] := by
  induction slots with
  | nil =>
    rw [if_neg (by simp)]
    rfl
  | cons i slots ih =>
    obtain ⟨hi, hn⟩ := List.nodup_cons.mp hn
    rw [copies_cons, framesTo_append, ih hn]
    by_cases hd : room.conn i = some d
    · have hrest : ¬ ∃ j ∈ slots, room.conn j = some d := by
        rintro ⟨j, hj, hjd⟩
        exact hi (hok.apart i j d hd hjd ▸ hj)
      have hfirst : ∃ j ∈ i :: slots, room.conn j = some d := ⟨i, List.mem_cons_self, hd⟩
      rw [if_neg hrest, if_pos hfirst]
      simp [Room.copies, hd, framesTo]
    · have hone : framesTo d (room.copies [i] via m) = [] := by
        cases hc : room.conn i with
        | none => simp [Room.copies, hc, framesTo]
        | some c =>
          have hcd : c ≠ d := fun hcd => hd (hcd ▸ hc)
          simp [Room.copies, hc, framesTo, hcd]
      have hiff : (∃ j ∈ i :: slots, room.conn j = some d) ↔ ∃ j ∈ slots, room.conn j = some d := by
        simp [hd]
      rw [hone, List.nil_append, if_congr hiff rfl rfl]

/-- A line told under a condition. -/
theorem readAs_ite {p q : Prop} [Decidable p] [Decidable q] (hpq : p ↔ q) (m : Message) :
    List.Forall₂ Line.ReadAs (if p then [.message m] else [])
      (if q then [canonical m] else []) := by
  by_cases hp : p
  · rw [if_pos hp, if_pos (hpq.mp hp)]
    exact .cons rfl .nil
  · rw [if_neg hp, if_neg fun hq => hp (hpq.mpr hq)]
    exact .nil

/-- What an asking connection is told. -/
theorem tells_reply (hs : room.conn s = some c) {l : Line} (hl : l.ReadAs (canonical m)) :
    Tells (only c l) (room.reply s m) := by
  intro d
  rw [only]
  split
  · next hd =>
    rw [framesTo_reply (hd ▸ hs)]
    exact .cons hl .nil
  · next hd =>
    rw [framesTo_reply_of_ne fun hc => hd (Option.some.inj (hc.symm.trans hs))]
    exact .nil

theorem tells_message (hs : room.conn s = some c) (m : Message) :
    Tells (only c (.message m)) (room.reply s m) :=
  tells_reply hs (show Line.ReadAs (.message m) (canonical m) from rfl)

variable (h : Seats room hall) (hok : Tidy room)
include h hok

/-- What the other slots get. -/
theorem Seats.tells_others (hs : room.conn s = some c) (via : Via) (m : Message) :
    Tells (hall.toOthers c m) (room.copies (room.others s) via m) := by
  classical
  intro d
  have hn : (room.others s).Nodup := (List.nodup_finRange _).filter _
  rw [framesTo_copies hok hn, Hall.toOthers]
  refine readAs_ite ?_ m
  rw [h.member_iff]
  constructor
  · rintro ⟨hdc, t, ht, ha⟩
    refine ⟨t, mem_others.mpr ⟨?_, ha⟩, ht⟩
    rintro rfl
    exact hdc (Option.some.inj (ht.symm.trans hs))
  · rintro ⟨t, ht, htd⟩
    obtain ⟨hts, ha⟩ := mem_others.mp ht
    refine ⟨?_, t, htd, ha⟩
    rintro rfl
    exact hts (hok.apart t s d htd hs)

/-- What the slot of a name gets. -/
theorem Seats.tells_name (hu : u.length ≤ maxUsernameLen) (ht : findName room.table u = some t)
    (m : Message) : Tells (hall.toName (cstr u) m) (room.copies [t] .relay m) := by
  classical
  intro d
  obtain ⟨ha, hn⟩ := (Entry.holds_iff_cstr hu).mp (findName_eq_some ht)
  rw [framesTo_copies hok (List.nodup_singleton t), Hall.toName]
  refine readAs_ite ?_ m
  rw [h.online_iff]
  constructor
  · rintro ⟨k, hk, hka, hkn⟩
    exact ⟨t, List.mem_singleton_self t, hok.names.unique k t hka ha (hkn.trans hn.symm) ▸ hk⟩
  · rintro ⟨k, hk, hkd⟩
    obtain rfl := List.mem_singleton.mp hk
    exact ⟨k, hkd, ha, hn⟩

/-- What a departure tells. -/
theorem Seats.tells_farewell (hs : room.conn s = some c) (env : Env) :
    Tells (hall.farewell env c) (room.farewell env s) := by
  rw [Hall.farewell, Room.farewell, h.name_slot hok hs]
  exact h.tells_others hok hs .notice _

/-- The user list shows who is online. -/
theorem Seats.tells_online (hs : room.conn s = some c) (env : Env) (m : Message) :
    Tells (only c (.online env.now m hall.users))
      (room.reply s (userList env.now m room.table)) := by
  refine tells_reply hs ?_
  have hlist : ∀ i, (room.table i).Listable := fun i => ⟨hok.names.terminated i, h.status_le i⟩
  have hshown : ∀ i, (room.table i).shown = (room.table i).active := by
    intro i
    cases ha : (room.table i).active with
    | false => rw [Entry.shown, ha, Bool.false_and]
    | true =>
      have hne := (hok.names.valid i ha).ne_nil
      simpa [Entry.shown, ha, List.isEmpty_iff] using hne
  have hslots : shownEntries room.table =
      ((List.finRange maxClients).filter fun i => (room.table i).active).map room.table := by
    rw [shownEntries, List.filter_map]
    congr 2
    exact funext hshown
  refine ⟨(shownEntries room.table).map fun e => (e.name, e.status), ?_, ?_, ?_⟩
  · rw [hslots, List.map_map]
    refine List.Nodup.map_on ?_ ((List.nodup_finRange _).filter _)
    intro i hi j hj he
    exact hok.names.unique i j (by simpa using hi) (by simpa using hj) (Prod.mk.inj he).1
  · intro x
    rw [hslots, List.map_map, List.mem_map]
    constructor
    · rintro ⟨i, hi, rfl⟩
      have ha : (room.table i).active = true := by simpa using hi
      obtain ⟨d, hd⟩ := hok.conn_of_active ha
      exact ⟨d, h.guest_iff.mpr ⟨i, hd, ha, rfl, rfl⟩⟩
    · rintro ⟨d, hd⟩
      obtain ⟨i, -, ha, hn, hv⟩ := h.guest_iff.mp hd
      exact ⟨i, by simpa using ha, Prod.ext hn hv⟩
  · rw [userList, listUsers_eq hlist, List.map_map]
    rfl

/-! ## Events -/

/-- A room does what a hall does. -/
structure Follows (p : Room × List Sent) (q : Hall × Talk) : Prop where
  seats : Seats p.1 q.1
  tells : Tells q.2 p.2

namespace Seats

theorem login (hs : room.conn s = some c) (hc : hall.guest c ≠ none) (fl : Flavour) (env : Env)
    (m : Message) : Follows (room.login fl env s m) (hall.login fl env c hc m) := by
  unfold Room.login Hall.login
  cases hscan : scanLogin m.payload.toList with
  | none => exact ⟨h, tells_message hs _⟩
  | some fields =>
    obtain ⟨u, p⟩ := fields
    have hu := validName_of_scanLogin hscan
    simp only
    by_cases htaken : hall.Taken fl c u
    · rw [dif_pos htaken, if_pos ((h.taken_iff hok hs hu).mpr htaken)]
      exact ⟨h, tells_message hs _⟩
    · rw [dif_neg htaken, if_neg fun hroom => htaken ((h.taken_iff hok hs hu).mp hroom)]
      split
      · exact ⟨h, tells_message hs _⟩
      · refine ⟨h.setEntry hok hs (Nat.zero_le _) hc (Hall.admits_of_not_taken htaken _) ?_,
          tells_message hs _⟩
        have hname : ((room.table s).login u).name = u :=
          Entry.name_setName (hok.names.terminated s) hu
        rw [Entry.guest, hname]
        rfl

theorem logout (hs : room.conn s = some c) (hc : hall.guest c ≠ none) (fl : Flavour) (env : Env) :
    Follows (room.logout fl env s) (hall.logout fl env c hc) := by
  have htells := h.tells_farewell hok hs env
  cases fl with
  | fork =>
    have hstatus : (room.table s).clear.status ≤ statusAway := h.status_le s
    exact ⟨h.setEntry hok hs hstatus hc (hall.admits_none c) rfl, htells⟩
  | thread => exact ⟨h.release hok hs .thread, htells⟩
  | epoll => exact ⟨h.release hok hs .epoll, htells⟩

theorem broadcast (hs : room.conn s = some c) (env : Env) (m : Message) :
    Follows (room.broadcast env s m) (hall.broadcast env c m) := by
  unfold Room.broadcast Hall.broadcast
  have hmember := h.member_slot hok hs
  cases ha : (room.table s).active with
  | false =>
    rw [if_pos (by simp), if_neg (by simp [hmember, ha])]
    exact ⟨h, tells_message hs _⟩
  | true =>
    rw [if_neg (by simp), if_pos (hmember.mpr ha)]
    exact ⟨h.save env m [], (h.tells_others hok hs .relay m).andThen (tells_message hs _)⟩

theorem priv (hs : room.conn s = some c) (env : Env) (m : Message) :
    Follows (room.priv env s m) (hall.priv env c m) := by
  unfold Room.priv Hall.priv
  have hmember := h.member_slot hok hs
  have hlen : m.receiver.toList.length ≤ maxUsernameLen := (List.Vector.toList_length _).le
  have honline : _ ↔ ∃ d, hall.Online d m.receiverStr := h.holds_iff hok hlen
  cases ha : (room.table s).active with
  | false =>
    rw [if_pos (by simp), if_neg (by simp [hmember, ha])]
    exact ⟨h, tells_message hs _⟩
  | true =>
    rw [if_neg (by simp), if_pos (hmember.mpr ha)]
    split
    · next hnone =>
      rw [if_neg]
      · exact ⟨h, tells_message hs _⟩
      · rw [← honline]
        rintro ⟨t, ht⟩
        rw [findName_eq_none hnone t] at ht
        cases ht
    · next t ht =>
      rw [if_pos (honline.mp ⟨t, findName_eq_some ht⟩)]
      exact ⟨h.save env m m.receiverStr,
        (h.tells_name hok hlen ht m).andThen (tells_message hs _)⟩

/-- A request of a connection with a seat. -/
theorem route (hs : room.conn s = some c) {g : Guest} (hc : hall.guest c = some g)
    (fl : Flavour) (env : Env) (m : Message) :
    Follows (room.route fl env s m) (hall.route fl env c hc m) := by
  unfold Room.route Hall.route
  have hseat : hall.guest c ≠ none := by simp [hc]
  cases m.kind with
  | none => exact ⟨h, tells_message hs _⟩
  | some k =>
    cases k with
    | login => exact h.login hok hs hseat fl env m
    | logout => exact h.logout hok hs hseat fl env
    | broadcast => exact h.broadcast hok hs env m
    | priv => exact h.priv hok hs env m
    | listUsers => exact ⟨h, h.tells_online hok hs env m⟩
    | historyReq =>
      refine ⟨h, ?_⟩
      rw [h.history]
      exact tells_message hs _
    | statusChange =>
      refine ⟨h.setEntry hok hs (scanStatus_le _) hseat (Hall.admits_setStatus hc _) ?_,
        tells_message hs _⟩
      obtain rfl := Option.some.inj (hc.symm.trans (h.seated s c hs))
      change Option.map _ (Entry.guest (room.table s)) = Entry.guest ((room.table s).setStatus _)
      unfold Entry.guest
      cases ha : (room.table s).active with
      | true => simp [Entry.setStatus, ha, Entry.name]
      | false => simp [Entry.setStatus, ha]
    | _ => exact ⟨h, tells_message hs _⟩

/-- What the end of a connection tells. -/
theorem partings (hs : room.conn s = some c) (fl : Flavour) (how : Leaving) :
    Tells (hall.partings fl how c) (room.partings fl how s) := by
  have hmember := h.member_slot hok hs
  have hname : fl.shownName (hall.name c) how.junk = fl.lastName (room.table s) how.junk := by
    rw [h.name_slot hok hs]
    cases fl with
    | thread => exact (savedName_eq (hok.names.terminated s) how.junk).symm
    | fork => rfl
    | epoll => rfl
  cases fl with
  | fork =>
    change Tells (if how.reaped then silence else _) (if how.reaped then [] else _)
    split
    · exact .silence
    · exact h.tells_farewell hok hs how.env
  | thread | epoll =>
    simp only [Hall.partings, Room.partings, hname, hmember]
    split
    · exact h.tells_others hok hs .notice _
    · exact .silence

/-- Every event. -/
theorem serve (fl : Flavour) (e : Event) :
    Follows (ChatSystem.Chat.serve fl room e) (hall.serve fl e) := by
  cases e with
  | connect env =>
    change Follows (room.connect fl env) (hall.connect env)
    unfold Room.connect Hall.connect
    have hlt := h.ncard_lt_iff hok
    split
    · next hfull =>
      rw [dif_neg]
      · refine ⟨⟨h.seated, h.free, congrArg (· + 1) h.accepted, h.history, h.status_le⟩, ?_⟩
        intro d
        change List.Forall₂ Line.ReadAs (if d = hall.accepted then [_] else []) _
        rw [h.accepted]
        by_cases hd : d = room.accepted
        · rw [if_pos hd]
          simp [framesTo, hd, Line.ReadAs]
        · rw [if_neg hd]
          simp [framesTo, Ne.symm hd]
      · rw [hlt]
        rintro ⟨s, hs⟩
        simpa [hs] using firstSlot_eq_none hfull s
    · next s hfree =>
      have hs : room.conn s = none := by simpa using firstSlot_eq_some hfree
      rw [dif_pos (hlt.mpr ⟨s, hs⟩)]
      exact ⟨h.fill hok hs fl (hlt.mpr ⟨s, hs⟩), .silence⟩
  | request c m env =>
    change Follows (room.request fl c m.val env) (hall.request fl c m.val env)
    unfold Room.request Hall.request
    cases hs : room.slotOf c with
    | none =>
      have hc := h.free c (conn_ne_of_slotOf hs)
      simp only
      split
      · exact ⟨h, .silence⟩
      · next hg => exact absurd (hc.symm.trans hg) (by simp)
    | some s =>
      have hconn := conn_of_slotOf hs
      simp only
      split
      · next hg => exact absurd (hg.symm.trans (h.seated s c hconn)) (by simp)
      · next hg => exact h.route hok hconn hg fl env m.val
  | close c how =>
    change Follows (room.close fl c how) (hall.close fl c how)
    unfold Room.close Hall.close
    cases hs : room.slotOf c with
    | none =>
      rw [h.free c (conn_ne_of_slotOf hs)]
      exact ⟨h, .silence⟩
    | some s =>
      have hconn := conn_of_slotOf hs
      rw [h.seated s c hconn]
      exact ⟨h.release hok hconn fl, h.partings hok hconn fl how⟩

end Seats

omit h hok

/-! ## Runs -/

theorem seats_init (history : History) : Seats (.init history) (.empty history) where
  seated := by
    intro s c hs
    cases hs
  free _ _ := rfl
  accepted := rfl
  history := rfl
  status_le _ := Nat.zero_le _

/-- Behind every list of events a room is the hall behind them, and has sent what it told. -/
theorem seats_after (fl : Flavour) (history : History) (es : List Event) :
    Seats (roomAfter fl history es) (hallAfter fl history es) ∧
      Tells (toldAt fl history es) (sentAt fl history es) := by
  obtain ⟨hr, hq⟩ := run_rel (f := ChatSystem.Chat.serve fl) (g := serving fl)
    (R := fun room hall => Seats room hall ∧ Tidy room)
    (Q := fun out talks => Tells (fun d => talks.flatMap (· d)) out)
    .silence
    (fun a b c d h h' => by
      intro k
      simp only [List.flatMap_append]
      exact h.andThen h' k)
    (fun room hall e h => by
      have hserve := h.1.serve h.2 fl e
      refine ⟨⟨hserve.seats, h.2.serve fl e⟩, ?_⟩
      simpa [serving] using hserve.tells)
    ⟨seats_init history, tidy_init history⟩ es
  exact ⟨hr.1, hq⟩

theorem framesTo_eq_ofConn (c : Nat) (out : List Sent) :
    framesTo c out = ofConn c (out.map Sent.parcel) := by
  rw [framesTo, ofConn, List.filterMap_map]
  rfl

/-- A server that does what a room does, does what a hall does. -/
theorem Implements.seats {es : List Event} {history : History} {asked sent : List (Nat × Message)}
    (h : Implements fl history es room asked sent) :
    Seats room (hallAfter fl history es) ∧
      ∀ c, List.Forall₂ Line.ReadAs (toldAt fl history es c) (ofConn c sent) := by
  obtain ⟨hseats, htells⟩ := seats_after fl history es
  rw [h.room] at hseats
  refine ⟨hseats, fun c => ?_⟩
  rw [← h.sent, ← framesTo_eq_ofConn]
  exact htells c

/-! ## The servers -/

/-- A run of one of the servers, with the room it is behind it, the requests it has routed and
what it has put out for each connection. -/
inductive Ran (history : History) : Flavour → Room → List (Nat × Message) →
    (Nat → List Message) → Prop
  | epoll {ls : List Epoll.Label} {srv : Epoll.Server}
      (hrun : Transition.run Epoll.step (.init history) ls = some srv) :
      Ran history .epoll srv.room srv.asked fun c => ofConn c srv.sent
  | thread {ns : List Thread.Shift} {st : Thread.State}
      (hserial : Transition.Meets Thread.shift Thread.Serial (Thread.init history) ns)
      (hrun : Transition.run Thread.shift (Thread.init history) ns = some st) :
      Ran history .thread st.shared.room
        ((Transition.collect Thread.shift Thread.eventsOf (Thread.init history) ns).filterMap
          Event.asked)
        fun c => received ((wireTo c (Thread.wireOf st.shared.log)).length + 1)
          ⟨wireTo c (Thread.wireOf st.shared.log), []⟩
  | fork {ns : List Fork.Round} {st : Fork.State}
      (hcalm : Transition.Meets Fork.round Fork.Undisturbed (Fork.init history) ns)
      (hrun : Transition.run Fork.round (Fork.init history) ns = some st) :
      Ran history .fork st.shared.room (st.shared.log.filterMap Fork.Event.asked)
        fun c => ofConn c (st.shared.log.filterMap Fork.Event.parcel)

/-- The three servers are halls. -/
theorem servers_are_halls {history : History} {asked : List (Nat × Message)}
    {heard : Nat → List Message} (h : Ran history fl room asked heard) :
    ∃ es : List Event, es.filterMap Event.asked = asked ∧
      Seats room (hallAfter fl history es) ∧
      ∀ c, List.Forall₂ Line.ReadAs (toldAt fl history es c) (heard c) := by
  cases h with
  | epoll hrun =>
    obtain ⟨ess, -, hess⟩ := Epoll.matches_of_run hrun
    have himp : Implements .epoll history ess.flatten _ _ _ :=
      implements_of_matches hess rfl rfl rfl
    exact ⟨_, himp.asked, himp.seats⟩
  | @thread ns st hserial hrun =>
    have hshows := (Thread.settled_run (Thread.settled_init history) hserial hrun).shows
    rw [List.nil_append] at hshows
    obtain ⟨es, hes⟩ : ∃ es, es =
      Transition.collect Thread.shift Thread.eventsOf (Thread.init history) ns := ⟨_, rfl⟩
    rw [← hes] at hshows ⊢
    obtain ⟨hseats, htells⟩ := seats_after .thread history es
    have hsteady : Channel.Steady [] := by simp [Channel.Steady]
    refine ⟨es, rfl, hshows.room ▸ hseats, fun c => ?_⟩
    have hwire : Thread.wireOf st.shared.log = (sentAt .thread history es).flatMap bytesOf :=
      hshows.wire
    simp only
    rw [hwire, received_sent (asRead_sentAt .thread history es) c hsteady (Nat.lt_add_one _)]
    exact htells c
  | fork hcalm hrun =>
    have himp : Implements _ _ _ _ _ _ :=
      (Fork.settled_run (Fork.settled_init history) hcalm hrun).shows
    rw [List.nil_append] at himp
    exact ⟨_, himp.asked, himp.seats⟩

/-- A client of the epoll server that asks for the list of users. -/
theorem servers_are_halls_oneBurst : ∃ (srv : Epoll.Server) (es : List Event),
    Transition.run Epoll.step (Epoll.Server.init fun _ => none) (Epoll.oneBurst plainEnv
      ⟨packMessage (makeMessage 7 .listUsers [] [] []), [9], .again⟩) = some srv ∧
    Seats srv.room (hallAfter .epoll (fun _ => none) es) ∧
    ∀ c, List.Forall₂ Line.ReadAs (toldAt .epoll (fun _ => none) es c) (ofConn c srv.sent) := by
  obtain ⟨a, srv, s, hrun, -, -⟩ := Epoll.run_oneBurst (fun _ => none) plainEnv
    ⟨packMessage (makeMessage 7 .listUsers [] [] []), [9], .again⟩
  obtain ⟨es, -, h⟩ := servers_are_halls (.epoll hrun)
  exact ⟨srv, es, hrun, h⟩

end ChatSystem.Chat
