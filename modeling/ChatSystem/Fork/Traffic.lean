import ChatSystem.Fork.Pipes
import ChatSystem.Protocol.Reencode

/-!
# Traffic on the pipes

Every write to a pipe is a packed message, written whole, and every reader takes whole
frames off its front. So a pipe holds complete frames at any time, `pipe_recv` never meets
an announcement it has no room for, and it returns what was written.
-/

namespace ChatSystem.Fork

open Bytes Channel Tasks Transition

/-- The pipes between the parent and the child of a connection. -/
inductive Pipe
  | toChild (c : Nat)
  | fromChild (c : Nat)
  deriving DecidableEq, Repr

/-- The bytes in a pipe. -/
def Shared.content (sh : Shared) : Pipe → List UInt8
  | .toChild c => sh.toPipe c
  | .fromChild c => sh.fromPipe c

/-- What `pipe_send` to a slot writes, and where; nothing once the child is gone. -/
def Shared.sending (sh : Shared) (s : Slot) (m : Message) : List (Pipe × Message) :=
  match sh.fd (sh.clients s).toChild.2 with
  | some (.toWrite c) => if sh.closed c then [] else [(.toChild c, m)]
  | _ => []

/-- The message an act writes to a pipe. -/
def Act.writing (a : Act) (i : Input) (sh : Shared) : List (Pipe × Message) :=
  match a with
  | .notify skip note (j :: _) =>
    if j ≠ skip ∧ (sh.clients j).active then sh.sending j (notice i.env.now note) else []
  | .relay skip m (j :: _) => if j ≠ skip ∧ (sh.clients j).active then sh.sending j m else []
  | .pipeSend s m => sh.sending s m
  | .reply s make => sh.sending s (make i.env.now)
  | .forward k m => if sh.closed k.conn then [] else [(.fromChild k.conn, m)]
  | _ => []

/-- The message `pipe_recv` returns to an act. -/
def Act.reading (a : Act) (i : Input) (sh : Shared) : List (Pipe × Message) :=
  match a with
  | .recv _ fd =>
    match sh.readEnd fd with
    | some c =>
      match pipeRecv (sh.closed c) ⟨sh.fromPipe c, i.reads.map .chunk⟩ with
      | some (some m, _) => [(.fromChild c, m)]
      | _ => []
    | none => []
  | .fromParent k =>
    match pipeRecv false ⟨sh.toPipe k.conn, i.reads.map .chunk⟩ with
    | some (some m, _) => [(.toChild k.conn, m)]
    | _ => []
  | _ => []

/-- The messages of a pipe. -/
def onPipe (p : Pipe) (xs : List (Pipe × Message)) : List Message :=
  xs.filterMap fun x => if x.1 = p then some x.2 else none

/-- What the next act of a process gives. -/
def ofAct (f : Act → Input → Shared → List (Pipe × Message)) (st : State) (l : Tid × Input) :
    List (Pipe × Message) :=
  match st.todo l.1 with
  | .act a :: _ => f a l.2 st.shared
  | _ => []

/-- The messages written to a pipe in a run, each by one `write` of its packed form. -/
def written (p : Pipe) (st : State) (ls : List (Tid × Input)) : List Message :=
  onPipe p (collect step (ofAct Act.writing) st ls)

/-- The messages `pipe_recv` returns from a pipe in a run. -/
def returned (p : Pipe) (st : State) (ls : List (Tid × Input)) : List Message :=
  onPipe p (collect step (ofAct Act.reading) st ls)

variable {t : Tid} {a : Act} {i : Input} {sh sh' : Shared} {out : Outcome Empty Tid Act Shared}
  {p : Pipe}

@[simp] theorem onPipe_nil (p : Pipe) : onPipe p [] = [] := rfl

@[simp] theorem onPipe_append (p : Pipe) (xs ys : List (Pipe × Message)) :
    onPipe p (xs ++ ys) = onPipe p xs ++ onPipe p ys := List.filterMap_append ..

@[simp] theorem onPipe_self (p : Pipe) (m : Message) : onPipe p [(p, m)] = [m] := by
  simp [onPipe]

theorem onPipe_of_ne {q : Pipe} (h : q ≠ p) (m : Message) : onPipe p [(q, m)] = [] := by
  simp [onPipe, h]

/-! ## One act -/

/-- The bytes a list of messages puts on a pipe. -/
def frames (ms : List Message) : List UInt8 := (ms.map packMessage).flatten

@[simp] theorem frames_nil : frames [] = [] := rfl

@[simp] theorem frames_append (ms ns : List Message) :
    frames (ms ++ ns) = frames ms ++ frames ns := by
  simp [frames]

theorem frames_singleton (m : Message) : frames [m] = packMessage m := by
  simp [frames]

/-- `pipe_send` puts one frame on one pipe. -/
theorem content_pipeSend (sh : Shared) (s : Slot) (m : Message) (p : Pipe) :
    (sh.pipeSend s m).content p = sh.content p ++ frames (onPipe p (sh.sending s m)) := by
  unfold Shared.pipeSend
  split
  · next c hfd =>
    simp only [Shared.sending, hfd]
    by_cases hc : sh.closed c = true
    · rw [if_pos hc, onPipe_nil, frames_nil, List.append_nil]
      unfold Shared.feed
      rw [if_pos (show (sh.note (.sent c m)).closed c = true from hc)]
      cases p <;> rfl
    · rw [if_neg hc]
      unfold Shared.feed
      rw [if_neg (show ¬ (sh.note (.sent c m)).closed c = true from hc)]
      by_cases hp : Pipe.toChild c = p
      · subst hp
        rw [onPipe_self, frames_singleton]
        exact Function.update_self ..
      · rw [onPipe_of_ne hp, frames_nil, List.append_nil]
        cases p with
        | fromChild d => rfl
        | toChild d =>
          have hd : d ≠ c := fun he => hp (by rw [he])
          exact Function.update_of_ne hd ..
  · next hno =>
    unfold Shared.sending
    split
    · next c hfd => exact absurd hfd (hno c)
    · rw [onPipe_nil, frames_nil, List.append_nil]

/-- A child puts one frame on its pipe. -/
theorem content_forward (sh : Shared) (c : Nat) (m : Message) (p : Pipe) :
    (sh.forward c m).content p = sh.content p ++ frames (onPipe p [(.fromChild c, m)]) := by
  by_cases hp : Pipe.fromChild c = p
  · subst hp
    rw [onPipe_self, frames_singleton]
    exact Function.update_self ..
  · rw [onPipe_of_ne hp, frames_nil, List.append_nil]
    cases p with
    | toChild d => rfl
    | fromChild d =>
      have hd : d ≠ c := fun he => hp (by rw [he])
      exact Function.update_of_ne hd ..

/-- Any act but a reading one appends what it writes. -/
theorem content_of_writing (h : exec t a i sh = some out) (hr : ∀ s fd, a ≠ .recv s fd)
    (hp : ∀ k, a ≠ .fromParent k) (p : Pipe) :
    out.shared.content p = sh.content p ++ frames (onPipe p (a.writing i sh)) := by
  have hsame : ∀ sh' : Shared, sh'.toPipe = sh.toPipe → sh'.fromPipe = sh.fromPipe →
      sh'.content p = sh.content p ++ frames (onPipe p []) := by
    intro sh' h1 h2
    cases p <;> simp [Shared.content, h1, h2]
  cases a <;> simp only [exec] at h
  case recv s fd => exact absurd rfl (hr s fd)
  case fromParent k => exact absurd rfl (hp k)
  case notify skip note slots =>
    split at h
    · obtain rfl := goOn_inj h
      exact hsame _ rfl rfl
    · simp only [Act.writing]
      split at h <;> obtain rfl := goOn_inj h
      · next hj =>
        rw [if_pos hj]
        exact content_pipeSend sh _ _ p
      · next hj =>
        rw [if_neg hj]
        exact hsame _ rfl rfl
  case relay skip m slots =>
    split at h
    · obtain rfl := goOn_inj h
      exact hsame _ rfl rfl
    · simp only [Act.writing]
      split at h <;> obtain rfl := goOn_inj h
      · next hj =>
        rw [if_pos hj]
        exact content_pipeSend sh _ _ p
      · next hj =>
        rw [if_neg hj]
        exact hsame _ rfl rfl
  case pipeSend s m =>
    obtain rfl := goOn_inj h
    exact content_pipeSend sh s m p
  case reply s make =>
    obtain rfl := goOn_inj h
    exact content_pipeSend sh s _ p
  case forward k m =>
    simp only [Act.writing]
    split at h <;> obtain rfl := goOn_inj h
    · next hk =>
      rw [if_pos hk]
      exact hsame _ rfl rfl
    · next hk =>
      rw [if_neg hk]
      exact content_forward sh k.conn m p
  case reap =>
    split at h
    · cases h
    · next pid _ =>
      split at h
      · obtain rfl := goOn_inj h
        rcases reap_cases sh pid with ⟨-, he⟩ | ⟨s, -, -, he⟩
        · exact hsame (sh.reap pid) (by rw [he]) (by rw [he])
        · exact hsame (sh.reap pid) (by rw [he]; rfl) (by rw [he]; rfl)
      · cases h
  all_goals
    repeat' split at h
    all_goals cases h
    all_goals exact hsame _ rfl rfl

/-- Reading from a pipe of frames and leaving the others alone. -/
theorem traffic_read {q : Pipe} {closed : Bool} {reads : List Nat} {r : Option Message}
    {src : Source UInt8} (hr : pipeRecv closed ⟨sh.content q, reads.map .chunk⟩ = some (r, src))
    (hself : sh'.content q = src.inbound) (hother : ∀ p, p ≠ q → sh'.content p = sh.content p)
    {ms : List Message} (hms : sh.content p = frames ms) : ∃ ms', sh'.content p = frames ms' ∧
      ms.map canonical = onPipe p (r.toList.map fun m => (q, m)) ++ ms'.map canonical := by
  by_cases hp : q = p
  · subst hp
    rw [hms] at hr
    rcases pipeRecv_frames hr with ⟨rfl, -, rfl, hsrc⟩ | ⟨m, ms', rfl, rfl, hsrc⟩
    · exact ⟨[], hself.trans hsrc, rfl⟩
    · refine ⟨ms', hself.trans hsrc, ?_⟩
      rw [Option.toList_some, List.map_singleton, onPipe_self]
      rfl
  · refine ⟨ms, (hother p (Ne.symm hp)).trans hms, ?_⟩
    cases r with
    | none => rfl
    | some m =>
      rw [Option.toList_some, List.map_singleton, onPipe_of_ne hp, List.nil_append]

theorem content_readFrom (sh : Shared) (c : Nat) (rest : List UInt8) :
    (sh.readFrom c rest).content (.fromChild c) = rest ∧
      ∀ p, p ≠ .fromChild c → (sh.readFrom c rest).content p = sh.content p := by
  refine ⟨Function.update_self .., fun p hp => ?_⟩
  cases p with
  | toChild d => rfl
  | fromChild d =>
    have hd : d ≠ c := fun he => hp (by rw [he])
    exact Function.update_of_ne hd ..

theorem content_readTo (sh : Shared) (c : Nat) (rest : List UInt8) :
    (sh.readTo c rest).content (.toChild c) = rest ∧
      ∀ p, p ≠ .toChild c → (sh.readTo c rest).content p = sh.content p := by
  refine ⟨Function.update_self .., fun p hp => ?_⟩
  cases p with
  | fromChild d => rfl
  | toChild d =>
    have hd : d ≠ c := fun he => hp (by rw [he])
    exact Function.update_of_ne hd ..

/-- One act on a pipe of frames: what was there and what it writes is what it reads and what is
there behind it. -/
theorem traffic_exec (h : exec t a i sh = some out) {ms : List Message}
    (hms : sh.content p = frames ms) : ∃ ms', out.shared.content p = frames ms' ∧
      (ms ++ onPipe p (a.writing i sh)).map canonical =
        onPipe p (a.reading i sh) ++ ms'.map canonical := by
  by_cases hrecv : ∃ s fd, a = .recv s fd
  · obtain ⟨s, fd, rfl⟩ := hrecv
    simp only [exec] at h
    split at h
    · cases h
    · next c hc =>
      split at h
      · cases h
      · next m src hr =>
        obtain rfl := goOn_inj h
        have hread : Act.reading (.recv s fd) i sh = [(.fromChild c, m)] := by
          simp only [Act.reading, hc, hr]
        obtain ⟨hself, hother⟩ := content_readFrom sh c src.inbound
        rw [hread]
        simpa [Act.writing] using traffic_read (q := .fromChild c) hr hself hother hms
      · next src hr =>
        obtain rfl := goOn_inj h
        have hread : Act.reading (.recv s fd) i sh = [] := by
          simp only [Act.reading, hc, hr]
        obtain ⟨hself, hother⟩ := content_readFrom sh c src.inbound
        rw [hread]
        simpa [Act.writing] using traffic_read (q := .fromChild c) hr hself hother hms
  · by_cases hparent : ∃ k, a = .fromParent k
    · obtain ⟨k, rfl⟩ := hparent
      simp only [exec] at h
      split at h
      · cases h
      · next src hr =>
        obtain rfl := goOn_inj h
        have hread : Act.reading (.fromParent k) i sh = [] := by
          simp only [Act.reading, hr]
        obtain ⟨hself, hother⟩ := content_readTo sh k.conn src.inbound
        rw [hread]
        simpa [Act.writing] using traffic_read (q := .toChild k.conn) hr hself hother hms
      · next m src hr =>
        obtain rfl := goOn_inj h
        have hread : Act.reading (.fromParent k) i sh = [(.toChild k.conn, m)] := by
          simp only [Act.reading, hr]
        obtain ⟨hself, hother⟩ := content_readTo sh k.conn src.inbound
        have hnote : ∀ q, ((sh.readTo k.conn src.inbound).note (.delivered k.conn m)).content q =
            (sh.readTo k.conn src.inbound).content q := by
          intro q
          cases q <;> rfl
        rw [hread]
        simpa [Act.writing] using traffic_read (q := .toChild k.conn) hr
          ((hnote _).trans hself) (fun q hq => (hnote q).trans (hother q hq)) hms
    · refine ⟨ms ++ onPipe p (a.writing i sh), ?_, ?_⟩
      · rw [content_of_writing h (fun s fd he => hrecv ⟨s, fd, he⟩)
          (fun k he => hparent ⟨k, he⟩), hms, frames_append]
      · have hnone : a.reading i sh = [] := by
          cases a with
          | recv s fd => exact absurd ⟨s, fd, rfl⟩ hrecv
          | fromParent k => exact absurd ⟨k, rfl⟩ hparent
          | _ => rfl
        rw [hnone, onPipe_nil, List.nil_append]

/-! ## Descriptors to write to -/

/-- A descriptor `pipe_send` may find in a slot: an end of its own, or that of an unused slot. -/
def Handle.forWriting : Handle → Prop
  | .own | .toWrite _ => True
  | _ => False

/-- No slot leads `pipe_send` to another pipe, or to a socket. -/
def Writable (sh : Shared) : Prop :=
  ∀ s, ∃ r, sh.fd (sh.clients s).toChild.2 = some r ∧ r.forWriting

theorem Writable.congr (hW : Writable sh)
    (hto : ∀ s, (sh'.clients s).toChild = (sh.clients s).toChild)
    (hfd : ∀ n r, sh.fd n = some r → r.forWriting → sh'.fd n = some r) : Writable sh' := by
  intro s
  obtain ⟨r, hr, hw⟩ := hW s
  rw [hto]
  exact ⟨r, hfd _ r hr hw, hw⟩

theorem Writable.setClient (hW : Writable sh) {s : Slot} {c : Client}
    (h : c.toChild = (sh.clients s).toChild) : Writable (sh.setClient s c) := by
  refine hW.congr (fun j => ?_) fun _ _ hn _ => hn
  by_cases hj : j = s
  · subst hj
    rw [clients_setClient_self, h]
  · rw [clients_setClient_of_ne sh hj]

theorem Writable.setEntry (hW : Writable sh) (s : Slot) (e : Entry) : Writable (sh.setEntry s e) :=
  hW.setClient rfl

theorem Writable.release (hW : Writable sh) (s : Slot) : Writable (sh.release s) := by
  have h : Writable (sh.setClient s
      { sh.clients s with toEntry := (sh.clients s).clear, pid := 0 }) := hW.setClient rfl
  exact h

theorem Writable.openTo (hW : Writable sh) {s : Slot} {c : Nat} {q : Nat × Nat}
    (hq : sh.Fresh q) : Writable (sh.openTo s c q) := by
  intro j
  by_cases hj : j = s
  · subst hj
    refine ⟨.toWrite c, ?_, trivial⟩
    rw [Shared.openTo, clients_setClient_self]
    exact Function.update_self ..
  · obtain ⟨r, hr, hw⟩ := hW j
    refine ⟨r, ?_, hw⟩
    have hother : (sh.openTo s c q).clients j = sh.clients j := by
      rw [Shared.openTo, clients_setClient_of_ne _ hj]
      rfl
    rw [hother]
    exact fd_openTo hq hr

theorem Writable.openFrom (hW : Writable sh) {s : Slot} {c : Nat} {q : Nat × Nat}
    (hq : sh.Fresh q) : Writable (sh.openFrom s c q) := by
  have hfd : Writable ((sh.openFd q.1 (.fromRead c)).openFd q.2 (.fromWrite c)) :=
    hW.congr (fun _ => rfl) fun n r hn _ => fd_openFrom (s := s) hq hn
  exact hfd.setClient rfl

/-- Every act keeps the descriptors to write to. -/
theorem Writable.keeps (hW : Writable sh) (hc : Change sh a sh') (hpre : Setup a sh) :
    Writable sh' := by
  have hne : ∀ {h r : Handle}, ¬ h.forWriting → r.forWriting → h ≠ r := by
    rintro h r hh hr rfl
    exact hh hr
  cases hc with
  | quiet h =>
    refine hW.congr (fun s => by rw [h.clients]) fun n r hn _ => ?_
    rw [h.fd]
    exact hn
  | accept hfree => exact hW.congr (fun _ => rfl) fun n r hn _ => fd_openFd hn hfree
  | openTo hp => exact hW.openTo hp
  | openBoth hp hq => exact (hW.openTo hp).openFrom hq
  | storePid k fd => exact hW.setClient rfl
  | closeEnds k fd =>
    refine hW.congr (fun _ => rfl) fun n r hn hr => ?_
    have hto := hpre.2.toRead
    have hfrom := hpre.2.fromWrite
    exact fd_close (fd_close hn hto (hne id hr)) (fd_close hfrom hto (by simp)) (hne id hr)
  | closeFd fd =>
    obtain ⟨c, hc⟩ := hpre
    exact hW.congr (fun _ => rfl) fun n r hn hr => fd_close hn hc (hne id hr)
  | drop s => exact hW.release s
  | storeName s u => exact hW.setEntry s _
  | activate s u => exact hW.setEntry s _
  | clear s => exact hW.setEntry s _
  | setStatus s m status => exact hW.setEntry s _
  | @reap pid c hpid =>
    rcases reap_cases sh pid with ⟨-, he⟩ | ⟨s, -, -, he⟩
    · rw [he]
      exact hW
    · rw [he]
      exact hW.release s
  | _ => exact hW

/-! ## Runs -/

variable {st st' : State} {l : Tid × Input} {ls : List (Tid × Input)} {history : History}

theorem writable_of_reachable (h : Reachable step (init history) st) : Writable st.shared := by
  refine (h.invariant (I := fun st => InLinks st ∧ Writable st.shared)
    ⟨inLinks_init history, fun s => ⟨.own, rfl, trivial⟩⟩ fun st l st' hi hs => ?_).2
  refine ⟨hi.1.step hs, ?_⟩
  obtain ⟨a, rest, out, htodo, hexec, rfl⟩ := step_act hs
  have hsetup := hi.1.setup l.1
  rw [htodo] at hsetup
  exact hi.2.keeps (change_of_exec hexec) (hsetup.1 a rfl)

/-- One step on a pipe of frames. -/
theorem traffic_step (hs : step st l = some st') {ms : List Message}
    (hms : st.shared.content p = frames ms) : ∃ ms', st'.shared.content p = frames ms' ∧
      (ms ++ onPipe p (ofAct Act.writing st l)).map canonical =
        onPipe p (ofAct Act.reading st l) ++ ms'.map canonical := by
  obtain ⟨a, rest, out, htodo, hexec, rfl⟩ := step_act hs
  simp only [ofAct, htodo]
  exact traffic_exec hexec hms

/-- A run on a pipe of frames: it holds what was there and was written, but for what was read. -/
theorem traffic_run (hrun : run step st ls = some st') {ms : List Message}
    (hms : st.shared.content p = frames ms) : ∃ rest, st'.shared.content p = frames rest ∧
      (ms ++ written p st ls).map canonical = returned p st ls ++ rest.map canonical := by
  induction ls generalizing st ms with
  | nil =>
    obtain rfl := Option.some.inj hrun
    exact ⟨ms, hms, by simp [written, returned, collect]⟩
  | cons l ls ih =>
    obtain ⟨st₁, hs, hrest⟩ := run_cons_iff.mp hrun
    obtain ⟨ms₁, hms₁, hstep⟩ := traffic_step hs hms
    obtain ⟨rest, hcontent, hlater⟩ := ih hrest hms₁
    refine ⟨rest, hcontent, ?_⟩
    have hw : written p st (l :: ls) = onPipe p (ofAct Act.writing st l) ++ written p st₁ ls := by
      rw [written, collect_cons hs, onPipe_append, written]
    have hr : returned p st (l :: ls) = onPipe p (ofAct Act.reading st l) ++ returned p st₁ ls := by
      rw [returned, collect_cons hs, onPipe_append, returned]
    rw [hw, hr, ← List.append_assoc, List.map_append, hstep, List.append_assoc,
      ← List.map_append, hlater, List.append_assoc]

/-- The header at the front of a pipe of frames announces at most a full payload. -/
theorem announcedLen_frames {ms : List Message} {reads : List Nat} {header : List UInt8}
    {src : Source UInt8}
    (h : readFull ⟨frames ms, reads.map .chunk⟩ headerSize [] = (some header, src)) :
    (announcedLen header).toNat ≤ maxPayloadLen := by
  obtain ⟨_, rfl, hlen, hin⟩ := readFull_eq_some (Nat.zero_le _) h
  have htake : header = (frames ms).take headerSize := by
    have hfront : frames ms = header ++ src.inbound := hin
    rw [hfront, List.take_left' hlen]
  cases ms with
  | nil =>
    rw [htake] at hlen
    cases hlen
  | cons m ms =>
    have hfirst : frames (m :: ms) = packHeader m ++ (m.payload.toList.take (packedLen m).toNat ++
        frames ms) := by
      simp [frames, packMessage]
    rw [htake, announcedLen_take (Nat.le_refl _), hfirst, announcedLen_packHeader]
    exact packedLen_le m

theorem map_packMessage_canonical (ms : List Message) :
    (ms.map canonical).map packMessage = ms.map packMessage := by
  rw [List.map_map]
  exact List.map_congr_left fun m _ => packMessage_canonical m

/-- Pipe framing: after every run of the parent, the children and the handler, over every
interleaving, every client stream and every split of the reads, each pipe holds complete
frames; what `pipe_recv` returned is in order what was written, up to what the pipe still holds,
message by message and, packed again, byte by byte. No header it can read announces more than
its buffer takes, it fails only at the end of an empty pipe, the parent only reads from pipes,
and no slot leads `pipe_send` anywhere else. -/
theorem pipes_framed (hrun : run step (init history) ls = some st) :
    (∀ p, ∃ rest : List Message, st.shared.content p = frames rest ∧
      (written p (init history) ls).map canonical =
        returned p (init history) ls ++ rest.map canonical ∧
      (written p (init history) ls).map packMessage =
        (returned p (init history) ls).map packMessage ++ rest.map packMessage) ∧
    (∀ (p : Pipe) (reads : List Nat) (header : List UInt8) (src : Source UInt8),
      readFull ⟨st.shared.content p, reads.map .chunk⟩ headerSize [] = (some header, src) →
      (announcedLen header).toNat ≤ maxPayloadLen) ∧
    (∀ (p : Pipe) (closed : Bool) (reads : List Nat) (src : Source UInt8),
      pipeRecv closed ⟨st.shared.content p, reads.map .chunk⟩ = some (none, src) →
      closed = true ∧ st.shared.content p = []) ∧
    (∀ s fd rest, st.todo .parent = .act (.recv s fd) :: rest →
      ∃ c, st.shared.fd fd = some (.fromRead c)) ∧
    Writable st.shared := by
  have hframes : ∀ p, ∃ rest, st.shared.content p = frames rest ∧
      (written p (init history) ls).map canonical =
        returned p (init history) ls ++ rest.map canonical := by
    intro p
    have hinit : (init history).shared.content p = frames [] := by
      cases p <;> rfl
    exact traffic_run hrun hinit
  refine ⟨fun p => ?_, fun p reads header src h => ?_, fun p closed reads src h => ?_,
    fun s fd rest htodo => ?_, writable_of_reachable ⟨ls, hrun⟩⟩
  · obtain ⟨rest, hcontent, heq⟩ := hframes p
    refine ⟨rest, hcontent, heq, ?_⟩
    rw [← map_packMessage_canonical (written p (init history) ls), heq, List.map_append,
      map_packMessage_canonical]
  · obtain ⟨rest, hcontent, -⟩ := hframes p
    rw [hcontent] at h
    exact announcedLen_frames h
  · obtain ⟨rest, hcontent, -⟩ := hframes p
    rw [hcontent] at h ⊢
    rcases pipeRecv_frames h with ⟨rfl, hclosed, -, -⟩ | ⟨m, ms, -, hsome, -⟩
    · exact ⟨hclosed, rfl⟩
    · cases hsome
  · have hout := (inReading_of_reachable ⟨ls, hrun⟩).outlined .parent
    rw [htodo] at hout
    obtain ⟨-, k, -, -, hfd, -⟩ := hout.1 _ rfl
    exact ⟨k.conn, hfd⟩

/-- The farewell of a client that leaves at once is routed as its child wrote it. -/
theorem pipes_framed_visit : ∃ st, run step (init fun _ => none) visit = some st ∧
    ∃ rest, st.shared.content (.fromChild 0) = frames rest ∧
      (written (.fromChild 0) (init fun _ => none) visit).map packMessage =
        (returned (.fromChild 0) (init fun _ => none) visit).map packMessage ++
          rest.map packMessage := by
  have hbye : WellFormed bye := wellFormed_makeMessage ..
  have hvisit : run step (init fun _ => none) visit = some _ :=
    run_trans rfl (run_trans rfl (run_cons_iff.mpr ⟨_, step_fromClient_end rfl,
      run_trans rfl (run_trans rfl (run_cons_iff.mpr ⟨_, step_recv hbye rfl rfl
        (List.append_nil _).symm, rfl⟩))⟩))
  obtain ⟨rest, hcontent, -, heq⟩ := (pipes_framed hvisit).1 (.fromChild 0)
  exact ⟨_, hvisit, rest, hcontent, heq⟩

end ChatSystem.Fork
