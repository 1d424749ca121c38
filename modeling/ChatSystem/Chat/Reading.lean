import ChatSystem.Chat.Tidy
import ChatSystem.Core.Simulation

/-!
# Servers read as rooms

A server that runs on bytes, buffers and descriptors is read as a room by its table, its
connections and its history. What it takes in are the requests it routes, what it puts out the
messages it hands over to connections.
-/

namespace ChatSystem.Chat

open Reactive Simulation

/-- The surroundings an event is handled in. -/
def Event.env : Event → Env
  | .connect env => env
  | .request _ _ env => env
  | .close _ how => how.env

/-- The request of an event. -/
def Event.asked : Event → Option (Nat × Message)
  | .request c m _ => some (c, m.val)
  | _ => none

/-- A sent message without the reason for it. -/
def Sent.parcel (x : Sent) : Nat × Message := (x.conn, x.frame)

/-- The messages for or of a connection. -/
def ofConn (c : Nat) (xs : List (Nat × Message)) : List Message :=
  xs.filterMap fun x => if x.1 = c then some x.2 else none

/-- A server read as a room. -/
def reading {σ : Type*} (fl : Flavour) (room : σ → Room) (asked sent : σ → List (Nat × Message)) :
    Reading σ Room Event Sent (Nat × Message) (Nat × Message) where
  handle := serve fl
  state := room
  heard := asked
  hear := Event.asked
  said := sent
  say x := some x.parcel

/-- Behind a list of events from the start, a server is the room behind these events, has routed
their requests and handed over what the room sends. -/
structure Implements (fl : Flavour) (history : History) (es : List Event) (room : Room)
    (asked sent : List (Nat × Message)) : Prop where
  room : roomAfter fl history es = room
  asked : es.filterMap Event.asked = asked
  sent : (sentAt fl history es).map Sent.parcel = sent

variable {σ : Type*} {fl : Flavour} {room : σ → Room} {asked sent : σ → List (Nat × Message)}
  {history : History} {es : List Event}

/-- A change that matches one event. -/
theorem matches_event {a b : σ} {e : Event} (hroom : room b = (serve fl (room a) e).1)
    (hasked : asked b = asked a ++ e.asked.toList)
    (hsent : sent b = sent a ++ (serve fl (room a) e).2.map Sent.parcel) :
    (reading fl room asked sent).Matches a b [e] := by
  refine .of_event hroom hasked ?_
  change _ = _ ++ (serve fl (room a) e).2.filterMap fun x => some x.parcel
  rw [List.filterMap_eq_map']
  exact hsent

/-- A change from the start that matches events. -/
theorem implements_of_matches {a b : σ} (h : (reading fl room asked sent).Matches a b es)
    (hroom : room a = .init history) (hasked : asked a = []) (hsent : sent a = []) :
    Implements fl history es (room b) (asked b) (sent b) := by
  have hstate : room b = after (serve fl) (room a) es := h.state
  have hheard : asked b = asked a ++ es.filterMap Event.asked := h.heard
  have hsaid : sent b = sent a ++
      (outputs (serve fl) (room a) es).filterMap fun x => some x.parcel := h.said
  rw [hroom] at hstate hsaid
  rw [hasked, List.nil_append] at hheard
  rw [hsent, List.nil_append, List.filterMap_eq_map'] at hsaid
  exact ⟨hstate.symm, hheard.symm, hsaid.symm⟩

/-- One more event. -/
theorem Implements.snoc {r r' : Room} {asked' sent' : List (Nat × Message)} {e : Event}
    {ins outs : List (Nat × Message)} (h : Implements fl history es r ins outs)
    (hroom : r' = (serve fl r e).1) (hasked : asked' = ins ++ e.asked.toList)
    (hsent : sent' = outs ++ (serve fl r e).2.map Sent.parcel) :
    Implements fl history (es ++ [e]) r' asked' sent' := by
  constructor
  · rw [hroom, ← h.room, roomAfter, roomAfter, after_append]
    rfl
  · rw [hasked, ← h.asked, List.filterMap_append]
    cases e <;> rfl
  · rw [hsent, ← h.sent, ← h.room, sentAt, sentAt, outputs_append, List.map_append]
    simp only [outputs_cons, outputs_nil, List.append_nil]
    rfl

theorem copies_cons (room : Room) (j : Slot) (slots : List Slot) (via : Via) (m : Message) :
    room.copies (j :: slots) via m = room.copies [j] via m ++ room.copies slots via m :=
  List.filterMap_append (l := [j])

theorem others_setEntry_self (room : Room) (s : Slot) (e : Entry) :
    (room.setEntry s e).others s = room.others s := by
  unfold Room.others
  apply List.filter_congr
  intro i _
  by_cases hi : i = s
  · simp [hi]
  · rw [table_setEntry, Function.update_of_ne hi]

/-- The room of a server is tidy. -/
theorem Implements.tidy {room : Room} {asked sent : List (Nat × Message)}
    (h : Implements fl history es room asked sent) : Tidy room := by
  rw [← h.room]
  exact tidy_roomAfter fl history es

end ChatSystem.Chat
