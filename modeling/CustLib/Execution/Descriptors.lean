import CustLib.Execution.Stream

/-!
# The descriptors of `accept` and `connect`

A descriptor that `socket` or `accept` returns is the future's, until it is handed to the caller
with the stream in `*out`, or closed. `NetSys.Conserved` says so of a future that has been dropped,
and that no null `out` was written through.

`accept` looks at `out`, and `connect` does not: with a null `out`, which `then` passes to its first
child, a failure is written through it, and a success leaves the descriptor to nobody.
`conserved_iff` says that these are the only ways to go wrong.
-/

namespace CustLib.Exec

/-! ## What is asked for

Where a descriptor may be when its future is gone: in an open stream at `out`, or closed and not
registered. `Honest` collects what the rest of the system must not do to the descriptors of the future.
-/

def IoDriver.table (d : IoDriver) : List Int := d.fds.map IoSched.fd

/-- The descriptors that the future got from the kernel. -/
def obtainedFds (log : List NetEvent) : List Int :=
  log.filterMap fun e => match e with
    | .obtained fd => some fd
    | _ => none

/-- The descriptor is in the open stream that the last poll left in `*out`. -/
def NetSys.Stored (s : NetSys) (fd : Int) : Prop :=
  (∃ p, s.out = some p ∧ s.net.streams p = fd) ∧ fd ∈ s.net.driver.table ∧
    .closed fd ∉ s.net.log

/-- The descriptor was closed, once, and is not registered. -/
def NetSys.Closed (s : NetSys) (fd : Int) : Prop :=
  s.net.log.count (.closed fd) = 1 ∧ fd ∉ s.net.driver.table

/-- No null `out` was written through, and when the future has been dropped, every descriptor that
    it got is in one of the two places. -/
def NetSys.Conserved (s : NetSys) : Prop :=
  .nullWritten ∉ s.net.log ∧
    (s.pc = .dropped → ∀ fd ∈ obtainedFds s.net.log, Xor (s.Stored fd) (s.Closed fd))

def IoFut.opens : IoFut → Call → Bool
  | .accept _, _           => true
  | .connect _, .socket _  => true
  | _, _                   => false

/-- The poll waits for a call that opens a descriptor. -/
def NetSys.opens (s : NetSys) : Bool :=
  match s.pc with
  | .calling c => s.fut.opens c
  | _ => false

/-- The rest of the system keeps to the rules. A new descriptor is one that was not open, so it is
    not registered; the rest of the program leaves alone the descriptors of the future and the
    streams they are in; a descriptor is registered once. -/
def NetSys.Honest (s : NetSys) : NetAct → Prop
  | .answer a => s.opens = true → 0 ≤ a.ret → a.ret ∉ s.net.driver.table
  | .driver d => d.table.Nodup ∧
    ∀ fd ∈ obtainedFds s.net.log, (fd ∈ d.table ↔ fd ∈ s.net.driver.table)
  | .stream p fd =>
    s.net.streams p ∉ obtainedFds s.net.log ∧ fd ∉ obtainedFds s.net.log
  | .poll _ | .drop => True

instance (s : NetSys) : ∀ a, Decidable (s.Honest a)
  | .answer a =>
    inferInstanceAs (Decidable (s.opens = true → 0 ≤ a.ret → a.ret ∉ s.net.driver.table))
  | .driver _ => inferInstanceAs (Decidable (_ ∧ ∀ fd ∈ obtainedFds s.net.log, _))
  | .stream _ _ => inferInstanceAs (Decidable (_ ∧ _))
  | .poll _ | .drop => inferInstanceAs (Decidable True)

/-- The connect goes on after this answer. -/
def goesOn : Call → Answer → Bool
  | .socket _, a  => a.ret ≥ 0 && a.alloc && a.ctl
  | .connect _, a => a.ret = -EINPROGRESS
  | _, _          => false

/-- The answer finishes a connect that has no place for its stream. -/
def NetSys.finishesUnseen (s : NetSys) (a : Answer) : Bool :=
  match s.fut, s.pc, s.out with
  | .connect _, .calling c, none => !goesOn c a
  | _, _, _ => false

/-- A connect does not finish, well or badly, in a poll with a null `out`. -/
def NetSys.Taken (s : NetSys) : NetAct → Prop
  | .answer a => s.finishesUnseen a = false
  | _ => True

def NetSys.honestStep : NetSys → NetAct → Option NetSys :=
  Machine.guarded NetSys.step NetSys.Honest

/-! ## Registrations

Which operations change the table of the driver: `cexec_io_add` and `cexec_io_remove`, and no poll of a
readiness future.
-/

theorem table_updateSched {f : IoSched → IoSched} (hf : ∀ s, (f s).fd = s.fd) (fd : Int)
    (l : List IoSched) : (updateSched fd f l).map IoSched.fd = l.map IoSched.fd := by
  induction l with
  | nil => rfl
  | cons s rest ih =>
      rw [updateSched]
      split
      · rw [List.map_cons, List.map_cons, hf]
      · rw [List.map_cons, List.map_cons, ih]

theorem table_interestPoll (d : IoDriver) (b : InterestBox) (clone : TaskId) :
    (interestPoll d b clone).2.1.table = d.table := by
  unfold interestPoll
  split
  · rfl
  split
  · apply table_updateSched
    intro s
    exact fd_arm s b.wantWrite clone
  · rfl

theorem table_interestDrop (d : IoDriver) (b : InterestBox) :
    (interestDrop d b).1.table = d.table := by
  unfold interestDrop
  split
  · rfl
  split
  · apply table_updateSched
    intro s
    exact fd_disarm s b.wantWrite
  · rfl

/-- The registration of a new descriptor. -/
theorem cexecIoAdd_new {d : IoDriver} {fd : Int} (h : fd ∉ d.table) (alloc ctl : Bool) :
    cexecIoAdd d fd alloc ctl =
      if alloc && ctl then (true, { d with fds := d.fds ++ [⟨fd, 0, 0, false, false, 0⟩] })
      else (false, d) := by
  have hnone : findSched d fd = none := by
    rw [findSched, List.find?_eq_none]
    intro s hs heq
    exact h (List.mem_map.mpr ⟨s, hs, by simpa using heq⟩)
  rw [cexecIoAdd, hnone]

/-- A descriptor that is registered once is not after its removal. -/
theorem cexecIoRemove_table {d : IoDriver} (hnodup : d.table.Nodup) (fd : Int) :
    (cexecIoRemove d fd).1.table.Nodup ∧ fd ∉ (cexecIoRemove d fd).1.table := by
  unfold cexecIoRemove
  split
  next s hs =>
    obtain ⟨hfd, l₁, l₂, hfds, -⟩ := findSched_split hs
    have hmem : s ∈ d.fds := by simp [hfds]
    obtain ⟨m₁, m₂, -, hsplit, herase⟩ := List.exists_erase_eq hmem
    have htable : (schedFree d s).1.table = (m₁ ++ m₂).map IoSched.fd := by
      show (d.fds.erase s).map IoSched.fd = _
      rw [herase]
    rw [IoDriver.table, hsplit, List.map_append, List.map_cons, List.nodup_middle,
      List.nodup_cons, ← List.map_append, hfd] at hnodup
    rw [htable]
    exact ⟨hnodup.2, hnodup.1⟩
  next hnone =>
    refine ⟨hnodup, ?_⟩
    intro hmem
    obtain ⟨s, hs, hfd⟩ := List.mem_map.mp hmem
    exact findSched_none hnone s hs hfd

/-! ## The stages of a future

A future has nothing yet (`Clean`), holds a descriptor (`Owned`), or has passed it on or closed it
(`Done`). A connect goes through all three, the other futures skip the second.
-/

structure Clean (net : Net) : Prop where
  log   : net.log = []
  nodup : net.driver.table.Nodup

structure Owned (net : Net) (fd : Int) : Prop where
  log   : net.log = [.obtained fd]
  pos   : 0 ≤ fd
  table : fd ∈ net.driver.table
  nodup : net.driver.table.Nodup

structure Done (net : Net) (out : Option Nat) : Prop where
  nodup : net.driver.table.Nodup
  place : net.log = [] ∨
    (∃ fd p, net.log = [.obtained fd] ∧ out = some p ∧ net.streams p = fd ∧
      fd ∈ net.driver.table) ∨
    ∃ fd, net.log = [.obtained fd, .closed fd] ∧ fd ∉ net.driver.table

def Unwritten (net : Net) : Prop := .nullWritten ∉ net.log

def IoFut.Simple : IoFut → Prop
  | .connect _ => False
  | _ => True

/-- A future that holds no descriptor and awaits nothing. -/
def IoFut.Empty : IoFut → Prop
  | .connect b => b.wait.awaiting = false ∧ b.stream < 0
  | _ => True

inductive Stage (net : Net) (out : Option Nat) : IoFut → IoPc → Prop where
  | simple {fut pc} : fut.Simple → (pc = .idle ∨ ∃ c, pc = .calling c) → Clean net →
      Stage net out fut pc
  | new {b} : b.started = false → b.stream = -1 → b.moved = false → b.wait.awaiting = false →
      Clean net → Stage net out (.connect b) .idle
  | socket {b family} : b.started = true → b.stream = -1 → b.moved = false →
      b.wait.awaiting = false → Clean net → Stage net out (.connect b) (.calling (.socket family))
  | connect {b fd} : b.started = true → b.moved = false → b.wait.awaiting = false →
      Owned net b.stream → Stage net out (.connect b) (.calling (.connect fd))
  | waiting {b} : b.started = true → b.moved = false → b.wait.awaiting = true →
      Owned net b.stream → Stage net out (.connect b) .idle
  | sockopt {b fd} : b.started = true → b.moved = false → b.wait.awaiting = false →
      Owned net b.stream → Stage net out (.connect b) (.calling (.getsockopt fd))
  | ready {fut} : fut.Empty → Done net out → Stage net out fut .ready
  | dropped {fut} : Done net out → Stage net out fut .dropped
  | crashed {fut} : Unwritten net → Stage net out fut .crashed

theorem Clean.unwritten {net : Net} (h : Clean net) : Unwritten net := by simp [Unwritten, h.log]

theorem Owned.unwritten {net : Net} {fd : Int} (h : Owned net fd) : Unwritten net := by
  simp [Unwritten, h.log]

theorem Done.unwritten {net : Net} {out : Option Nat} (h : Done net out) : Unwritten net := by
  rcases h.place with hlog | ⟨_, _, hlog, -⟩ | ⟨_, hlog, -⟩ <;> simp [Unwritten, hlog]

structure Net.Like (net net' : Net) : Prop where
  log     : net'.log = net.log
  streams : net'.streams = net.streams
  table   : net'.driver.table = net.driver.table

theorem Net.Like.refl (net : Net) : net.Like net := ⟨rfl, rfl, rfl⟩

theorem Net.Like.trans {net net' net'' : Net} (h : net.Like net') (h' : net'.Like net'') :
    net.Like net'' :=
  ⟨h'.log.trans h.log, h'.streams.trans h.streams, h'.table.trans h.table⟩

theorem Clean.like {net net' : Net} (h : Clean net) (hl : net.Like net') : Clean net' :=
  ⟨hl.log.trans h.log, by rw [hl.table]; exact h.nodup⟩

theorem Owned.like {net net' : Net} {fd : Int} (h : Owned net fd) (hl : net.Like net') :
    Owned net' fd :=
  ⟨hl.log.trans h.log, h.pos, by rw [hl.table]; exact h.table, by rw [hl.table]; exact h.nodup⟩

theorem Done.like {net net' : Net} {out : Option Nat} (h : Done net out) (hl : net.Like net') :
    Done net' out := by
  refine ⟨by rw [hl.table]; exact h.nodup, ?_⟩
  rw [hl.log, hl.streams, hl.table]
  exact h.place

/-! ## Parts of a poll

Waiting changes nothing about descriptors. Adoption and closing are the two places where they move.
-/

variable {net : Net} {out : Option Nat}

theorem dropFuture_like (b : Option InterestBox) :
    Eff.wp (dropFuture b) (fun _ => net.Like) (fun _ => False) net := by
  cases b with
  | none => exact .refl net
  | some b => exact ⟨rfl, rfl, table_interestDrop net.driver b⟩

theorem dropWait_like (wait : Wait) :
    Eff.wp (dropWait wait) (fun _ => net.Like) (fun _ => False) net := by
  rw [dropWait, Eff.wp_when]
  split
  · exact dropFuture_like wait.readiness
  · exact .refl net

/-- The head of a loop leaves the descriptors alone; when it says to go on, nothing is awaited. -/
theorem awaitReady_like (h : Unwritten net) (wait : Wait) :
    Eff.wp (awaitReady wait) (fun r net' => net.Like net' ∧ r.2.awaiting = !r.1) Unwritten net := by
  unfold awaitReady
  cases hw : wait.awaiting with
  | false => exact ⟨.refl net, by rw [hw]; rfl⟩
  | true =>
      cases hb : wait.readiness with
      | none =>
          -- the null future is polled, and nothing is written
          show NetEvent.nullWritten ∉ net.log ++ [.nullPolled]
          rw [List.mem_append, not_or]
          exact ⟨h, by simp⟩
      | some b =>
          refine Eff.wp_seq (P := fun _ net' => net.Like net') ?_ ?_
          · exact ⟨rfl, rfl, table_interestPoll net.driver b net.clones⟩
          · intro r net' hlike
            dsimp only
            split
            next hst =>
              exact ⟨hlike, rfl⟩
            next hst =>
              apply Eff.wp_seq_total (dropFuture_like r.2)
              intro _ net'' hlike'
              exact ⟨hlike.trans hlike', rfl⟩

/-- A poll that awaits readiness first. -/
theorem head_like (h : Unwritten net) {wait : Wait} {k : Bool × Wait → Eff Net (Next × IoFut)}
    {Q : Next × IoFut → Net → Prop}
    (hk : ∀ r net', net.Like net' → r.2.awaiting = (!r.1) → Eff.wp (k r) Q Unwritten net') :
    Eff.wp (awaitReady wait >>= k) Q Unwritten net :=
  Eff.wp_seq (awaitReady_like h wait) fun r net' hr => hk r net' hr.1 hr.2

/-- The descriptor is registered and in the handle, or closed and in none. -/
theorem cexecFdAdopt_spec {fd : Int} {a : Answer} (hnew : fd ∉ net.driver.table) :
    Eff.wp (cexecFdAdopt fd a)
      (fun r net' => net'.streams = net.streams ∧
        ((r = (true, fd) ∧ (a.alloc && a.ctl) = true ∧ net'.log = net.log ∧
            net'.driver.table = net.driver.table ++ [fd]) ∨
          (r = (false, -1) ∧ (a.alloc && a.ctl) = false ∧ net'.log = net.log ++ [.closed fd] ∧
            net'.driver.table = net.driver.table))) (fun _ => False) net := by
  unfold cexecFdAdopt
  rw [Eff.wp_bind, Eff.wp_move, cexecIoAdd_new hnew]
  cases hok : a.alloc && a.ctl with
  | true => exact ⟨rfl, .inl ⟨rfl, rfl, rfl, by simp [IoDriver.table]⟩⟩
  | false => exact ⟨rfl, .inr ⟨rfl, rfl, rfl, rfl⟩⟩

/-- A descriptor that was just obtained is adopted, or closed. -/
theorem adopt_obtained {fd : Int} {a : Answer} (hlog : net.log = [.obtained fd]) (hpos : 0 ≤ fd)
    (hnodup : net.driver.table.Nodup) (hnew : fd ∉ net.driver.table) :
    Eff.wp (cexecFdAdopt fd a)
      (fun r net' => (r = (true, fd) ∧ Owned net' fd) ∨
        (r = (false, -1) ∧ (a.alloc && a.ctl) = false ∧ net'.log = [.obtained fd, .closed fd] ∧
          net'.driver.table.Nodup ∧ fd ∉ net'.driver.table)) (fun _ => False) net := by
  apply Eff.wp_mono (cexecFdAdopt_spec hnew)
  · intro r net' hr
    obtain ⟨-, ⟨hr, -, hlog', htable⟩ | ⟨hr, hfail, hlog', htable⟩⟩ := hr
    · refine .inl ⟨hr, hlog'.trans hlog, hpos, by simp [htable], ?_⟩
      rw [htable, ← List.concat_eq_append, List.nodup_concat]
      exact ⟨hnew, hnodup⟩
    · refine .inr ⟨hr, hfail, ?_, ?_, ?_⟩
      · rw [hlog', hlog]
        rfl
      · rwa [htable]
      · rwa [htable]
  · exact fun _ => id

/-- The close of a descriptor that the future holds. -/
theorem cexecFdClose_spec {fd : Int} (h : Owned net fd) :
    Eff.wp (cexecFdClose fd)
      (fun r net' => r = -1 ∧ net'.log = [.obtained fd, .closed fd] ∧
        net'.driver.table.Nodup ∧ fd ∉ net'.driver.table) (fun _ => False) net := by
  unfold cexecFdClose
  rw [if_pos h.pos]
  obtain ⟨hnodup, hnot⟩ := cexecIoRemove_table h.nodup fd
  refine ⟨rfl, ?_, hnodup, hnot⟩
  show net.log ++ [.closed fd] = _
  rw [h.log]
  rfl

theorem done_closed {fd : Int} (hlog : net.log = [.obtained fd, .closed fd])
    (hnodup : net.driver.table.Nodup) (hnot : fd ∉ net.driver.table) : Done net out :=
  ⟨hnodup, .inr (.inr ⟨fd, hlog, hnot⟩)⟩

/-- A closed stream is reported. -/
theorem makeClosed_done (hout : out ≠ none) (fut : IoFut) (hfut : fut.Empty)
    (h : net.driver.table.Nodup ∧ (net.log = [] ∨
      ∃ fd, net.log = [.obtained fd, .closed fd] ∧ fd ∉ net.driver.table)) :
    Eff.wp (makeClosedStream out >>= fun _ => pure (Next.ready, fut))
      (fun r net' => Stage net' out r.2 r.1.pc) Unwritten net := by
  obtain ⟨p, rfl⟩ := Option.ne_none_iff_exists'.mp hout
  obtain ⟨hnodup, hplace⟩ := h
  refine Stage.ready hfut ⟨hnodup, ?_⟩
  rcases hplace with hlog | hclosed
  · exact .inl hlog
  · exact .inr (.inr hclosed)

/-! ## Polls

For `read`, `write` and `write_all` there is nothing to show but that they keep out of it; `accept` gets
a descriptor and is done with it in the same poll.
-/

def Plain (r : Next × IoFut) (net : Net) : Prop := r.2.Simple ∧ Clean net

theorem empty_of_simple {fut : IoFut} (h : fut.Simple) : fut.Empty := by
  cases fut with
  | connect b => exact h.elim
  | _ => trivial

theorem Plain.stage {r : Next × IoFut} (h : Plain r net) : Stage net out r.2 r.1.pc := by
  obtain ⟨hsimple, hclean⟩ := h
  cases hnext : r.1 with
  | pending => exact .simple hsimple (.inl rfl) hclean
  | ready => exact .ready (empty_of_simple hsimple) ⟨hclean.nodup, .inl hclean.log⟩
  | call c => exact .simple hsimple (.inr ⟨c, rfl⟩) hclean

theorem storeResult_like (out : Option Nat) (n : Int) :
    Eff.wp (storeResult out n) (fun _ => net.Like) (fun _ => False) net := by
  cases out with
  | none => exact .refl net
  | some p => exact ⟨rfl, rfl, rfl⟩

/-- A poll that returns with a result. -/
theorem storeResult_plain (h : Clean net) (fut : IoFut) (hfut : fut.Simple) (n : Int) :
    Eff.wp (storeResult out n >>= fun _ => pure (Next.ready, fut)) Plain Unwritten net :=
  Eff.wp_seq_total (storeResult_like out n) fun _ _ hlike => ⟨hfut, h.like hlike⟩

theorem rwPoll_plain (h : Clean net) (b : RwBox) : Eff.wp (rwPoll b) Plain Unwritten net := by
  apply head_like h.unwritten
  intro r net' hlike _
  dsimp only
  split
  · exact ⟨trivial, h.like hlike⟩
  · exact ⟨trivial, h.like hlike⟩

theorem rwReturn_plain (h : Clean net) (b : RwBox) (a : Answer) :
    Eff.wp (rwReturn b out a) Plain Unwritten net := by
  unfold rwReturn
  split
  · exact storeResult_plain h (.rw b) trivial _
  split
  · exact rwPoll_plain h b
  split
  · exact rwPoll_plain h _
  · exact storeResult_plain h (.rw b) trivial _

theorem writeallPoll_plain (h : Clean net) (b : WriteallBox) :
    Eff.wp (writeallPoll b out) Plain Unwritten net := by
  apply head_like h.unwritten
  intro r net' hlike _
  dsimp only
  split
  · exact ⟨trivial, h.like hlike⟩
  split
  · exact storeResult_plain (h.like hlike) (.writeall { b with wait := r.2 }) trivial _
  · exact ⟨trivial, h.like hlike⟩

theorem writeallReturn_plain (h : Clean net) (b : WriteallBox) (a : Answer) :
    Eff.wp (writeallReturn b out a) Plain Unwritten net := by
  unfold writeallReturn
  split
  · exact writeallPoll_plain h _
  split
  · exact writeallPoll_plain h b
  split
  · exact writeallPoll_plain h _
  · exact storeResult_plain h (.writeall b) trivial _

theorem acceptPoll_plain (h : Clean net) (b : AcceptBox) :
    Eff.wp (acceptPoll b) Plain Unwritten net := by
  apply head_like h.unwritten
  intro r net' hlike _
  dsimp only
  split
  · exact ⟨trivial, h.like hlike⟩
  · exact ⟨trivial, h.like hlike⟩

/-- A connection that was accepted is in `*out`, or closed. -/
theorem acceptAdopt_done {a : Answer} (hpos : 0 ≤ a.ret) (hlog : net.log = [.obtained a.ret])
    (hnodup : net.driver.table.Nodup) (hnew : a.ret ∉ net.driver.table) :
    Eff.wp (acceptAdopt a out) (fun _ net' => Done net' out) Unwritten net := by
  cases out with
  | none =>
      refine done_closed ?_ hnodup hnew
      show net.log ++ [.closed a.ret] = _
      rw [hlog]
      rfl
  | some p =>
      -- a closed stream is written first, which concerns no descriptor
      refine Eff.wp_seq (P := fun _ net' => net'.log = [.obtained a.ret] ∧
        net'.driver.table = net.driver.table) ⟨hlog, rfl⟩ ?_
      intro _ net' hnet'
      obtain ⟨hlog', htable⟩ := hnet'
      rw [← htable] at hnodup hnew
      apply Eff.wp_seq_total (adopt_obtained hlog' hpos hnodup hnew)
      intro r net'' hr
      rcases hr with ⟨rfl, howned⟩ | ⟨rfl, -, hclosed, hnodup', hnot⟩
      · refine ⟨howned.nodup, .inr (.inl ?_)⟩
        exact ⟨a.ret, p, howned.log, rfl, Function.update_self .., howned.table⟩
      · exact done_closed hclosed hnodup' hnot

/-- An `accept` has passed its descriptor on when it is `Ready`. -/
theorem acceptReturn_stage (h : Clean net) (b : AcceptBox) {a : Answer}
    (hnew : 0 ≤ a.ret → a.ret ∉ net.driver.table) :
    Eff.wp (acceptReturn b out a) (fun r net' => Stage net' out r.2 r.1.pc) Unwritten net := by
  have hplain : ∀ {x : Eff Net (Next × IoFut)} {net : Net}, Eff.wp x Plain Unwritten net →
      Eff.wp x (fun r net' => Stage net' out r.2 r.1.pc) Unwritten net := fun hx =>
    Eff.wp_mono hx (fun _ _ hr => hr.stage) fun _ => id
  unfold acceptReturn
  split
  next hpos =>
    refine Eff.wp_seq (P := fun _ net' => net'.log = [.obtained a.ret] ∧
      net'.driver.table = net.driver.table) ?_ ?_
    · refine ⟨?_, rfl⟩
      show net.log ++ [.obtained a.ret] = _
      rw [h.log]
      rfl
    · intro _ net' hnet'
      obtain ⟨hlog, htable⟩ := hnet'
      have hdone : Eff.wp (acceptAdopt a out) (fun _ net'' => Done net'' out) Unwritten net' := by
        apply acceptAdopt_done hpos hlog
        · exact htable ▸ h.nodup
        · exact htable ▸ hnew hpos
      apply Eff.wp_seq hdone
      exact fun _ net'' hdone => .ready trivial hdone
  split
  · exact hplain (acceptPoll_plain h b)
  split
  · exact hplain (acceptPoll_plain h _)
  · apply hplain
    cases out with
    | none => exact ⟨trivial, h⟩
    | some p => exact ⟨trivial, h.log, h.nodup⟩

/-! ### `connect`

The parts of `connect_poll`, in the order in which they run.
-/

/-- A connect that awaits the writability of its descriptor. -/
theorem connectAwait_stage {b : ConnectBox} (hstarted : b.started = true) (hmoved : b.moved = false)
    (hawait : b.wait.awaiting = true) (h : Owned net b.stream) :
    Eff.wp (connectAwait b) (fun r net' => Stage net' out r.2 r.1.pc) Unwritten net := by
  unfold connectAwait
  rw [hawait]
  apply head_like h.unwritten
  intro r net' hlike hr
  dsimp only
  split
  next hgo => exact .waiting hstarted hmoved (hr.trans hgo) (h.like hlike)
  next hgo =>
    rw [Bool.not_eq_true] at hgo
    exact .sockopt hstarted hmoved (hr.trans hgo) (h.like hlike)

theorem connectPoll_stage {b : ConnectBox} (h : Stage net out (.connect b) .idle)
    (out' : Option Nat) :
    Eff.wp (connectPoll b) (fun r net' => Stage net' out' r.2 r.1.pc) Unwritten net := by
  unfold connectPoll
  cases h with
  | simple hsimple => exact hsimple.elim
  | new hstarted hstream hmoved hawait hclean =>
      rw [hstarted]
      exact Stage.socket rfl hstream hmoved hawait hclean
  | waiting hstarted hmoved hawait howned =>
      rw [hstarted]
      exact connectAwait_stage hstarted hmoved hawait howned

/-- The stream is handed to the caller. -/
theorem connectHandOff_stage {b : ConnectBox} (hawait : b.wait.awaiting = false)
    (h : Owned net b.stream) (hout : out ≠ none) :
    Eff.wp (do return (Next.ready, IoFut.connect (← connectHandOff b out)))
      (fun r net' => Stage net' out r.2 r.1.pc) Unwritten net := by
  obtain ⟨p, rfl⟩ := Option.ne_none_iff_exists'.mp hout
  refine Stage.ready ⟨hawait, Int.negSucc_lt_zero 0⟩ ⟨h.nodup, .inr (.inl ?_)⟩
  exact ⟨b.stream, p, h.log, rfl, Function.update_self .., h.table⟩

/-- The connect has failed. -/
theorem connectFail_stage {b : ConnectBox} (hawait : b.wait.awaiting = false)
    (h : Owned net b.stream) (hout : out ≠ none) :
    Eff.wp (do
      let b := { b with stream := ← cexecFdClose b.stream }
      makeClosedStream out
      return (Next.ready, IoFut.connect b))
      (fun r net' => Stage net' out r.2 r.1.pc) Unwritten net := by
  apply Eff.wp_seq_total (cexecFdClose_spec h)
  intro r net' hr
  obtain ⟨rfl, hlog, hnodup, hnot⟩ := hr
  refine makeClosed_done hout (.connect { b with stream := -1 }) ?_
    ⟨hnodup, .inr ⟨b.stream, hlog, hnot⟩⟩
  exact ⟨hawait, Int.negSucc_lt_zero 0⟩

theorem connectSocket_stage {b : ConnectBox} (hstarted : b.started = true) (hstream : b.stream = -1)
    (hmoved : b.moved = false) (hawait : b.wait.awaiting = false) (h : Clean net) {a : Answer}
    (hnew : 0 ≤ a.ret → a.ret ∉ net.driver.table) {family : Int}
    (hout : out = none → goesOn (.socket family) a = true) :
    Eff.wp (connectSocket b out a) (fun r net' => Stage net' out r.2 r.1.pc) Unwritten net := by
  unfold connectSocket
  split
  next hneg =>
    have hsome : out ≠ none := by
      intro hnone
      have hgo := hout hnone
      simp only [goesOn, Bool.and_eq_true, decide_eq_true_eq] at hgo
      omega
    exact makeClosed_done hsome (.connect b) ⟨hawait, by omega⟩ ⟨h.nodup, .inl h.log⟩
  next hpos =>
    rw [Int.not_lt] at hpos
    refine Eff.wp_seq (P := fun _ net' => net'.log = [.obtained a.ret] ∧
      net'.driver.table = net.driver.table) ?_ ?_
    · refine ⟨?_, rfl⟩
      show net.log ++ [.obtained a.ret] = _
      rw [h.log]
      rfl
    intro _ net' hnet'
    obtain ⟨hlog', htable⟩ := hnet'
    have hnodup' : net'.driver.table.Nodup := htable ▸ h.nodup
    have hnew' : a.ret ∉ net'.driver.table := htable ▸ hnew hpos
    apply Eff.wp_seq_total (adopt_obtained hlog' hpos hnodup' hnew')
    intro r net'' hr
    rcases hr with ⟨rfl, howned⟩ | ⟨rfl, hfail, hclosed, hnodup'', hnot⟩
    · exact Stage.connect hstarted hmoved hawait howned
    · -- with a null `out` the adoption does not fail
      have hsome : out ≠ none := by
        intro hnone
        have hgo := hout hnone
        simp only [goesOn, Bool.and_assoc, hfail, Bool.and_false] at hgo
        cases hgo
      exact makeClosed_done hsome (.connect { b with stream := -1 })
        ⟨hawait, Int.negSucc_lt_zero 0⟩ ⟨hnodup'', .inr ⟨a.ret, hclosed, hnot⟩⟩

theorem connectConnect_stage {b : ConnectBox} (hstarted : b.started = true)
    (hmoved : b.moved = false) (hawait : b.wait.awaiting = false) (h : Owned net b.stream)
    {a : Answer} {fd : Int} (hout : out = none → goesOn (.connect fd) a = true) :
    Eff.wp (connectConnect b out a) (fun r net' => Stage net' out r.2 r.1.pc) Unwritten net := by
  unfold connectConnect
  by_cases hprogress : a.ret = -EINPROGRESS
  · have hne : a.ret ≠ 0 := by
      rw [hprogress]
      decide
    rw [if_neg hne, if_neg (not_not.mpr hprogress)]
    exact connectAwait_stage (b := { b with wait := awaitOn b.stream true a.alloc }) hstarted hmoved
      rfl h
  · have hsome : out ≠ none := by
      intro hnone
      exact hprogress (of_decide_eq_true (hout hnone))
    split
    · exact connectHandOff_stage hawait h hsome
    · exact connectFail_stage hawait h hsome

theorem connectSockopt_stage {b : ConnectBox} (hawait : b.wait.awaiting = false)
    (h : Owned net b.stream) (a : Answer) (hout : out ≠ none) :
    Eff.wp (connectSockopt b out a) (fun r net' => Stage net' out r.2 r.1.pc) Unwritten net := by
  unfold connectSockopt
  split
  · exact connectHandOff_stage hawait h hout
  · exact connectFail_stage hawait h hout

/-! ### Drops

A connect that is dropped in the middle closes its descriptor; all others have none.
-/

/-- A future that holds nothing. -/
theorem ioDrop_empty {fut : IoFut} (h : fut.Empty) :
    Eff.wp (ioDrop fut) (fun _ => net.Like) (fun _ => False) net := by
  cases fut with
  | connect b =>
      apply Eff.wp_seq (dropWait_like b.wait)
      intro _ net' hlike
      have hno : (!b.moved && decide (b.stream ≥ 0)) = false := by
        rw [Bool.and_eq_false_iff]
        exact .inr (decide_eq_false (Int.not_le.mpr h.2))
      rw [hno]
      exact hlike
  | rw b => exact dropWait_like b.wait
  | writeall b => exact dropWait_like b.wait
  | accept b => exact dropWait_like b.wait

/-- A connect that still holds its descriptor closes it. -/
theorem connectDrop_waiting {b : ConnectBox} (hmoved : b.moved = false) (h : Owned net b.stream) :
    Eff.wp (connectDrop b) (fun _ net' => Done net' out) (fun _ => False) net := by
  apply Eff.wp_seq (dropWait_like b.wait)
  intro _ net' hlike
  have howned := h.like hlike
  have hopen : (!b.moved && decide (b.stream ≥ 0)) = true := by
    rw [hmoved, Bool.and_eq_true]
    exact ⟨rfl, decide_eq_true howned.pos⟩
  rw [hopen, if_pos rfl]
  apply Eff.wp_seq_total (cexecFdClose_spec howned)
  intro r net'' hr
  obtain ⟨-, hlog, hnodup, hnot⟩ := hr
  exact done_closed hlog hnodup hnot

/-- A drop between two polls leaves no descriptor behind. -/
theorem ioDrop_done {fut : IoFut} {pc : IoPc} (h : Stage net out fut pc)
    (hpc : pc = .idle ∨ pc = .ready) :
    Eff.wp (ioDrop fut) (fun _ net' => Done net' out) (fun _ => False) net := by
  have hempty : fut.Empty → Done net out →
      Eff.wp (ioDrop fut) (fun _ net' => Done net' out) (fun _ => False) net := fun hfut hdone =>
    Eff.wp_mono (ioDrop_empty hfut) (fun _ _ hlike => hdone.like hlike) fun _ => id
  cases h with
  | simple hsimple _ hclean =>
      exact hempty (empty_of_simple hsimple) ⟨hclean.nodup, .inl hclean.log⟩
  | new _ hstream _ hawait hclean =>
      exact hempty ⟨hawait, by omega⟩ ⟨hclean.nodup, .inl hclean.log⟩
  | waiting _ hmoved _ howned => exact connectDrop_waiting hmoved howned
  | ready hfut hdone => exact hempty hfut hdone
  | _ => simp at hpc

/-! ## Steps

One step of the life of a future, and what the rest of the program may do between two polls.
-/

def NetSys.InStage (s : NetSys) : Prop := Stage s.net s.out s.fut s.pc

/-- A part of a poll ends in some stage. -/
theorem inStage_enter {s : NetSys} {x : Eff Net (Next × IoFut)}
    (h : Eff.wp x (fun r net' => Stage net' out r.2 r.1.pc) Unwritten s.net) :
    (s.enter out x).InStage := by
  unfold Eff.wp at h
  unfold NetSys.enter
  rcases hx : x s.net with ⟨_ | ⟨next, fut⟩, net'⟩ <;> rw [hx] at h
  · exact .crashed h
  · exact h

theorem ioPoll_stage {fut : IoFut} {out' : Option Nat} (h : Stage net out' fut .idle) :
    Eff.wp (ioPoll out fut) (fun r net' => Stage net' out r.2 r.1.pc) Unwritten net := by
  cases fut with
  | connect b => exact connectPoll_stage h out
  | rw b =>
      cases h with
      | simple _ _ hclean =>
          exact Eff.wp_mono (rwPoll_plain hclean b) (fun _ _ hr => hr.stage) fun _ => id
  | writeall b =>
      cases h with
      | simple _ _ hclean =>
          exact Eff.wp_mono (writeallPoll_plain hclean b) (fun _ _ hr => hr.stage) fun _ => id
  | accept b =>
      cases h with
      | simple _ _ hclean =>
          exact Eff.wp_mono (acceptPoll_plain hclean b) (fun _ _ hr => hr.stage) fun _ => id

/-- The second half of a poll, for whatever future it is. -/
theorem ioReturn_stage {fut : IoFut} {c : Call} {a : Answer} (h : Stage net out fut (.calling c))
    (hnew : fut.opens c = true → 0 ≤ a.ret → a.ret ∉ net.driver.table)
    (hout : ∀ b, fut = .connect b → out = none → goesOn c a = true) :
    Eff.wp (ioReturn out a fut c) (fun r net' => Stage net' out r.2 r.1.pc) Unwritten net := by
  cases h with
  | simple hsimple hpc hclean =>
      cases fut with
      | rw b => exact Eff.wp_mono (rwReturn_plain hclean b a) (fun _ _ hr => hr.stage) fun _ => id
      | writeall b =>
          exact Eff.wp_mono (writeallReturn_plain hclean b a) (fun _ _ hr => hr.stage) fun _ => id
      | accept b => exact acceptReturn_stage hclean b (hnew rfl)
      | connect b => exact hsimple.elim
  | socket hstarted hstream hmoved hawait hclean =>
      exact connectSocket_stage hstarted hstream hmoved hawait hclean (hnew rfl) (hout _ rfl)
  | connect hstarted hmoved hawait howned =>
      exact connectConnect_stage hstarted hmoved hawait howned (hout _ rfl)
  | sockopt _ _ hawait howned =>
      apply connectSockopt_stage hawait howned a
      exact fun hnone => nomatch hout _ rfl hnone

structure Net.Around (net net' : Net) : Prop where
  log     : net'.log = net.log
  nodup   : net'.driver.table.Nodup
  table   : ∀ fd ∈ obtainedFds net.log, (fd ∈ net'.driver.table ↔ fd ∈ net.driver.table)
  streams : ∀ p, net.streams p ∈ obtainedFds net.log → net'.streams p = net.streams p

theorem Clean.around {net net' : Net} (h : Clean net) (ha : net.Around net') : Clean net' :=
  ⟨ha.log.trans h.log, ha.nodup⟩

theorem Owned.around {net net' : Net} {fd : Int} (h : Owned net fd) (ha : net.Around net') :
    Owned net' fd :=
  ⟨ha.log.trans h.log, h.pos, (ha.table fd (by simp [obtainedFds, h.log])).mpr h.table, ha.nodup⟩

theorem Done.around {net net' : Net} (h : Done net out) (ha : net.Around net') : Done net' out := by
  refine ⟨ha.nodup, ?_⟩
  rw [ha.log]
  rcases h.place with hlog | ⟨fd, p, hlog, hout, hstream, htable⟩ | ⟨fd, hlog, hnot⟩
  · exact .inl hlog
  · have hmem : fd ∈ obtainedFds net.log := by simp [obtainedFds, hlog]
    refine .inr (.inl ⟨fd, p, hlog, hout, ?_, (ha.table fd hmem).mpr htable⟩)
    rw [ha.streams p (hstream ▸ hmem), hstream]
  · have hmem : fd ∈ obtainedFds net.log := by simp [obtainedFds, hlog]
    exact .inr (.inr ⟨fd, hlog, fun htable => hnot ((ha.table fd hmem).mp htable)⟩)

theorem Stage.around {net net' : Net} {fut : IoFut} {pc : IoPc} (h : Stage net out fut pc)
    (ha : net.Around net') : Stage net' out fut pc := by
  cases h with
  | simple hfut hpc hclean => exact .simple hfut hpc (hclean.around ha)
  | new hstarted hstream hmoved hawait hclean =>
      exact .new hstarted hstream hmoved hawait (hclean.around ha)
  | socket hstarted hstream hmoved hawait hclean =>
      exact .socket hstarted hstream hmoved hawait (hclean.around ha)
  | connect hstarted hmoved hawait howned =>
      exact .connect hstarted hmoved hawait (howned.around ha)
  | waiting hstarted hmoved hawait howned =>
      exact .waiting hstarted hmoved hawait (howned.around ha)
  | sockopt hstarted hmoved hawait howned =>
      exact .sockopt hstarted hmoved hawait (howned.around ha)
  | ready hfut hdone => exact .ready hfut (hdone.around ha)
  | dropped hdone => exact .dropped (hdone.around ha)
  | crashed hunwritten =>
      refine .crashed ?_
      rw [Unwritten, ha.log]
      exact hunwritten

/-- A stage is one with a table without repetitions, until control is lost. -/
theorem Stage.nodup {fut : IoFut} {pc : IoPc} (h : Stage net out fut pc)
    (hpc : pc.outside = true) : net.driver.table.Nodup := by
  cases h with
  | simple _ _ hclean => exact hclean.nodup
  | new _ _ _ _ hclean => exact hclean.nodup
  | waiting _ _ _ howned => exact howned.nodup
  | ready _ hdone => exact hdone.nodup
  | dropped hdone => exact hdone.nodup
  | _ => cases hpc

/-- **One step** of a system that keeps to the rules, unless a connect finishes with a null
    `out`. -/
theorem inStage_step {s s' : NetSys} {a : NetAct} (h : s.InStage) (hhonest : s.Honest a)
    (htaken : s.Taken a) (hs : s.step a = some s') : s'.InStage := by
  rcases step_cases hs with ⟨out, rfl, hpc, rfl⟩ | ⟨ans, c, rfl, hpc, rfl⟩ | ⟨rfl, hpc, rfl⟩ |
    ⟨d, rfl, hpc, rfl⟩ | ⟨p, fd, rfl, hpc, rfl⟩
  · rw [NetSys.InStage, hpc] at h
    exact inStage_enter (ioPoll_stage h)
  · rw [NetSys.InStage, hpc] at h
    refine inStage_enter (ioReturn_stage h ?_ ?_)
    · intro hopens
      exact hhonest (by simpa [NetSys.opens, hpc] using hopens)
    · intro b hfut hout
      simpa [NetSys.Taken, NetSys.finishesUnseen, hfut, hpc, hout] using htaken
  · obtain ⟨_, net', hrun, hdone⟩ := Eff.wp_total (ioDrop_done h hpc)
    rw [NetSys.leave, hrun]
    exact .dropped hdone
  · exact Stage.around h ⟨rfl, hhonest.1, hhonest.2, fun _ _ => rfl⟩
  · refine Stage.around h ⟨rfl, h.nodup hpc, fun _ _ => Iff.rfl, ?_⟩
    intro q hq
    refine Function.update_of_ne ?_ ..
    rintro rfl
    exact hhonest.1 hq

/-! ## Damage

The condition is necessary too: a connect that finishes in a poll with a null `out` writes through it,
or loses its descriptor, and neither can be undone.
-/

/-- A null `out` was written through, or the descriptor of a connect that has finished is
    nobody's. -/
def NetSys.Spoiled (s : NetSys) : Prop :=
  (s.pc = .crashed ∧ .nullWritten ∈ s.net.log) ∨
    ∃ fd, s.net.log = [.obtained fd] ∧ s.out = none ∧ s.fut.Empty ∧
      (s.pc = .ready ∨ s.pc = .dropped)

/-- The poll does such damage. -/
def Spoils (x : Eff Net (Next × IoFut)) (net : Net) : Prop :=
  Eff.wp x (fun r net' => r.1 = .ready ∧ r.2.Empty ∧ ∃ fd, net'.log = [.obtained fd])
    (fun net' => .nullWritten ∈ net'.log) net

/-- A failure is written to a null `out`. -/
theorem makeClosed_spoils (net : Net) {k : Unit → Eff Net (Next × IoFut)} :
    Spoils (makeClosedStream none >>= k) net := by
  show NetEvent.nullWritten ∈ net.log ++ [.nullWritten]
  exact List.mem_append_right _ (List.mem_singleton_self _)

theorem connectFail_spoils (net : Net) (fd : Int) {k : Int → Unit → Eff Net (Next × IoFut)} :
    Spoils (cexecFdClose fd >>= fun r => makeClosedStream none >>= k r) net := by
  refine Eff.wp_seq (P := fun _ _ => True) ?_ fun r net' _ => makeClosed_spoils net'
  unfold cexecFdClose
  split <;> trivial

/-- A hand-off to a null `out` does damage. -/
theorem connectHandOff_spoils {b : ConnectBox} (hawait : b.wait.awaiting = false)
    (h : Owned net b.stream) :
    Spoils (do return (Next.ready, IoFut.connect (← connectHandOff b none))) net :=
  ⟨rfl, ⟨hawait, Int.negSucc_lt_zero 0⟩, b.stream, h.log⟩

/-- A connect that finishes with a null `out`. -/
theorem connect_spoils {b : ConnectBox} {c : Call} {a : Answer}
    (h : Stage net none (.connect b) (.calling c))
    (hnew : (IoFut.connect b).opens c = true → 0 ≤ a.ret → a.ret ∉ net.driver.table)
    (hfinish : goesOn c a = false) :
    Spoils (ioReturn none a (.connect b) c) net := by
  cases h with
  | simple hsimple => exact hsimple.elim
  | socket =>
      show Spoils (connectSocket b none a) net
      unfold connectSocket
      split
      · exact makeClosed_spoils net
      next hpos =>
        rw [Int.not_lt] at hpos
        refine Eff.wp_seq (P := fun _ net' => net'.driver.table = net.driver.table) rfl ?_
        intro _ net' htable
        apply Eff.wp_seq_total (cexecFdAdopt_spec (by rw [htable]; exact hnew rfl hpos))
        intro r net'' hr
        rcases hr.2 with ⟨-, hok, -⟩ | ⟨rfl, -⟩
        · -- the descriptor was adopted, so the connect goes on
          simp [goesOn, hpos, hok] at hfinish
        · exact makeClosed_spoils net''
  | connect _ _ hawait howned =>
      show Spoils (connectConnect b none a) net
      have hfail : a.ret ≠ -EINPROGRESS := of_decide_eq_false hfinish
      unfold connectConnect
      split
      · exact connectHandOff_spoils hawait howned
      · exact connectFail_spoils net b.stream
  | sockopt _ _ hawait howned =>
      show Spoils (connectSockopt b none a) net
      unfold connectSockopt
      split
      · exact connectHandOff_spoils hawait howned
      · exact connectFail_spoils net b.stream

theorem spoiled_enter {s : NetSys} {x : Eff Net (Next × IoFut)} (hout : s.out = none)
    (h : Spoils x s.net) : (s.enter s.out x).Spoiled := by
  unfold Spoils Eff.wp at h
  unfold NetSys.enter
  rcases hx : x s.net with ⟨_ | ⟨next, fut⟩, net'⟩ <;> rw [hx] at h
  · exact .inl ⟨rfl, h⟩
  · obtain ⟨hready, hempty, fd, hlog⟩ := h
    obtain rfl : next = .ready := hready
    exact .inr ⟨fd, hlog, hout, hempty, .inl rfl⟩

/-- A connect that finishes with a null `out` does damage. -/
theorem spoiled_step {s s' : NetSys} {a : NetAct} (h : s.InStage) (hhonest : s.Honest a)
    (hfinish : ¬ s.Taken a) (hs : s.step a = some s') : s'.Spoiled := by
  rcases step_cases hs with ⟨_, rfl, -, -⟩ | ⟨ans, c, rfl, hpc, rfl⟩ | ⟨rfl, -, -⟩ |
    ⟨_, rfl, -, -⟩ | ⟨_, _, rfl, -, -⟩
  case inr.inl =>
    have hunseen : s.finishesUnseen ans = true := by simpa [NetSys.Taken] using hfinish
    cases hfut : s.fut with
    | connect b =>
        cases hout : s.out with
        | none =>
            have hgo : goesOn c ans = false := by
              simpa [NetSys.finishesUnseen, hfut, hpc, hout] using hunseen
            rw [NetSys.InStage, hpc, hfut, hout] at h
            have hdamage : Spoils (ioReturn s.out ans s.fut c) s.net := by
              rw [hfut, hout]
              refine connect_spoils h ?_ hgo
              intro hopens
              exact hhonest (by simpa [NetSys.opens, hpc, hfut] using hopens)
            rw [← hfut, ← hout]
            exact spoiled_enter hout hdamage
        | some p => simp [NetSys.finishesUnseen, hfut, hpc, hout] at hunseen
    | _ => simp [NetSys.finishesUnseen, hfut] at hunseen
  all_goals exact absurd trivial hfinish

/-- Damage stays. -/
theorem spoiled_stays {s s' : NetSys} {a : NetAct} (h : s.Spoiled) (hs : s.step a = some s') :
    s'.Spoiled := by
  rcases h with ⟨hcrashed, -⟩ | ⟨fd, hlog, hout, hempty, hready⟩
  · rcases step_cases hs with ⟨_, -, hpc, -⟩ | ⟨_, _, -, hpc, -⟩ | ⟨-, hpc, -⟩ | ⟨_, -, hpc, -⟩ |
      ⟨_, _, -, hpc, -⟩
    all_goals simp [hcrashed, IoPc.outside] at hpc
  · rcases step_cases hs with ⟨_, -, hpc, -⟩ | ⟨_, _, -, hpc, -⟩ | ⟨-, hpc, rfl⟩ | ⟨_, -, -, rfl⟩ |
      ⟨_, _, -, -, rfl⟩
    · simp [hpc] at hready
    · simp [hpc] at hready
    · have hdrop : Eff.wp (ioDrop s.fut) (fun _ => s.net.Like) (fun _ => False) s.net :=
        ioDrop_empty hempty
      obtain ⟨_, net', hrun, hlike⟩ := Eff.wp_total hdrop
      rw [NetSys.leave, hrun]
      exact .inr ⟨fd, hlike.log.trans hlog, hout, hempty, .inr rfl⟩
    · exact .inr ⟨fd, hlog, hout, hempty, hready⟩
    · exact .inr ⟨fd, hlog, hout, hempty, hready⟩

/-! ## Every run

Conservation holds of a finished honest run exactly when no connect has finished unseen.
-/

theorem inStage_start {driver : IoDriver} (hnodup : driver.table.Nodup) (streams : Nat → Int)
    {fut : IoFut} (hfut : fut.Fresh) : (NetSys.start driver streams fut).InStage := by
  have hclean : Clean (NetSys.start driver streams fut).net := ⟨rfl, hnodup⟩
  cases hfut with
  | connect family => exact .new rfl rfl rfl rfl hclean
  | _ => exact .simple trivial (.inl rfl) hclean

theorem Stage.unwritten {fut : IoFut} {pc : IoPc} (h : Stage net out fut pc) : Unwritten net := by
  cases h with
  | simple _ _ hclean => exact hclean.unwritten
  | new _ _ _ _ hclean => exact hclean.unwritten
  | socket _ _ _ _ hclean => exact hclean.unwritten
  | connect _ _ _ howned => exact howned.unwritten
  | waiting _ _ _ howned => exact howned.unwritten
  | sockopt _ _ _ howned => exact howned.unwritten
  | ready _ hdone => exact hdone.unwritten
  | dropped hdone => exact hdone.unwritten
  | crashed hunwritten => exact hunwritten

theorem Stage.done {fut : IoFut} (h : Stage net out fut .dropped) : Done net out := by
  cases h with
  | simple _ hidle => simp at hidle
  | dropped hdone => exact hdone

/-- A future in some stage has conserved its descriptors. -/
theorem NetSys.InStage.conserved {s : NetSys} (h : s.InStage) : s.Conserved := by
  refine ⟨h.unwritten, ?_⟩
  intro hpc fd hfd
  rw [NetSys.InStage, hpc] at h
  rcases h.done.place with hlog | ⟨fd', p, hlog, hout, hstream, htable⟩ | ⟨fd', hlog, hnot⟩
  · simp [hlog, obtainedFds] at hfd
  · obtain rfl : fd = fd' := by simpa [hlog, obtainedFds] using hfd
    refine .inl ⟨⟨⟨p, hout, hstream⟩, htable, by simp [hlog]⟩, ?_⟩
    exact fun hclosed => hclosed.2 htable
  · obtain rfl : fd = fd' := by simpa [hlog, obtainedFds] using hfd
    refine .inr ⟨⟨by simp [hlog], hnot⟩, ?_⟩
    exact fun hstored => hnot hstored.2.1

/-- Damage that was done is there at the end. -/
theorem NetSys.Spoiled.not_conserved {s : NetSys} (h : s.Spoiled)
    (hend : s.pc = .dropped ∨ s.pc = .crashed) : ¬ s.Conserved := by
  intro hconserved
  rcases h with ⟨-, hwritten⟩ | ⟨fd, hlog, hout, -, hpc⟩
  · exact hconserved.1 hwritten
  · have hdropped : s.pc = .dropped := by
      rcases hend with hend | hend
      · exact hend
      · simp [hend] at hpc
    rcases hconserved.2 hdropped fd (by simp [hlog, obtainedFds]) with ⟨hstored, -⟩ | ⟨hclosed, -⟩
    · obtain ⟨⟨p, hsome, -⟩, -⟩ := hstored
      rw [hout] at hsome
      cases hsome
    · have hcount := hclosed.1
      simp [hlog] at hcount

theorem honestStep_iff {s s' : NetSys} {a : NetAct} :
    s.honestStep a = some s' ↔ s.Honest a ∧ s.step a = some s' := Option.ite_none_right_eq_some

/-- **When descriptors are conserved**: a run in which no connect finishes with a null `out`
    conserves them and writes through no null `out`; and those are all such runs, of those that have
    come to an end. -/
theorem conserved_iff {driver : IoDriver} (hnodup : driver.table.Nodup) {streams : Nat → Int}
    {fut : IoFut} (hfut : fut.Fresh) {as : List NetAct} {s : NetSys}
    (h : Machine.run NetSys.honestStep (.start driver streams fut) as = some s) :
    (Machine.RunIn NetSys.honestStep NetSys.Taken (.start driver streams fut) as s →
        s.Conserved) ∧
      (s.pc = .dropped ∨ s.pc = .crashed → s.Conserved →
        Machine.RunIn NetSys.honestStep NetSys.Taken (.start driver streams fut) as s) := by
  have hstart := inStage_start hnodup streams hfut
  have hstep : ∀ (s : NetSys) a (s' : NetSys), s.InStage → s.Taken a →
      s.honestStep a = some s' → s'.InStage := by
    intro s a s' hstage htaken hs
    obtain ⟨hhonest, hs⟩ := honestStep_iff.mp hs
    exact inStage_step hstage hhonest htaken hs
  constructor
  · intro hrun
    exact (hrun.invariant hstep hstart).conserved
  · intro hend hconserved
    refine .of_undamaged hstep ?_ ?_ hstart h
      fun hspoiled : s.Spoiled => hspoiled.not_conserved hend hconserved
    · intro s a s' hstage hfinish hs
      obtain ⟨hhonest, hs⟩ := honestStep_iff.mp hs
      exact spoiled_step hstage hhonest hfinish hs
    · intro s a s' hspoiled hs
      exact spoiled_stays hspoiled (honestStep_iff.mp hs).2

/-- A connect that is polled once, with this `out`, and dropped: the kernel gives it the descriptor
    5 and connects it at once. -/
def connectOnce (out : Option Nat) : List NetAct :=
  [.poll out, .answer ⟨5, true, true⟩, .answer ⟨0, true, true⟩, .drop]

def connectStart : NetSys := .start ⟨[], [], 0⟩ (fun _ => -1) (cexecNetConnect 2)

theorem conserved_iff_stored :
    ∃ s, Machine.run NetSys.honestStep connectStart (connectOnce (some 0)) = some s ∧
      ((Machine.RunIn NetSys.honestStep NetSys.Taken connectStart (connectOnce (some 0)) s →
          s.Conserved) ∧
        (s.pc = .dropped ∨ s.pc = .crashed → s.Conserved →
          Machine.RunIn NetSys.honestStep NetSys.Taken connectStart (connectOnce (some 0)) s)) := by
  obtain ⟨s, hs⟩ : ∃ s,
      Machine.run NetSys.honestStep connectStart (connectOnce (some 0)) = some s :=
    Option.isSome_iff_exists.mp (by decide)
  exact ⟨s, hs, conserved_iff (by decide) (.connect 2) hs⟩

/-- With a null `out`, the descriptor of the connected socket is lost. -/
theorem descriptor_lost : ¬ ∀ (driver : IoDriver) (streams : Nat → Int) (fut : IoFut)
    (as : List NetAct) (s : NetSys), driver.table.Nodup → fut.Fresh →
    Machine.run NetSys.honestStep (.start driver streams fut) as = some s → s.Conserved := by
  intro hall
  obtain ⟨s, hs, hpc, hspoiled⟩ : ∃ s,
      Machine.run NetSys.honestStep connectStart (connectOnce none) = some s ∧
        s.pc = .dropped ∧ s.Spoiled :=
    ⟨_, rfl, rfl, .inr ⟨5, rfl, rfl, ⟨rfl, Int.negSucc_lt_zero 0⟩, .inr rfl⟩⟩
  exact hspoiled.not_conserved (.inl hpc) (hall _ _ _ _ s (by decide) (.connect 2) hs)

end CustLib.Exec
