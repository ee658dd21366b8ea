import MTAppenderFile.Loglib.Exactness
import MTAppenderFile.Loglib.Pipeline

/-! # Switching the mode

`setmode` changes the route of the records that follow and leaves those in the buffer where they are. A
record that is appended in sync mode goes to the log file at once, past the records in the buffer.

A run of whole operations carries along where its records are and when the mode was switched (`Trail`).
After `close` the records on both sides of every switch are in the log file and in order exactly if every
append in sync mode found the buffer empty (`switches_keep_order_iff`); in the empty directory there is no
log file, and nothing is kept. -/

namespace MTAppenderFile.Loglib.Switches

open MTAppenderFile.Lib.Buffered
open MTAppenderFile.Lib.Run
open MTAppenderFile.Comm.CTypes
open MTAppenderFile.Comm.Auto
open MTAppenderFile.Loglib.Base
open MTAppenderFile.Loglib.Buffer
open MTAppenderFile.Loglib.Files
open MTAppenderFile.Loglib.Formatter
open MTAppenderFile.Loglib.Appender
open MTAppenderFile.Loglib.Session
open MTAppenderFile.Loglib.Lifecycle
open MTAppenderFile.Loglib.Exactness
open MTAppenderFile.Loglib.Threads (drainBuffer)
open MTAppenderFile.Loglib.Pipeline (Record bytes bytes_append bytes_eq_nil_iff chunkOf printed printed_of
  printed_of_appenderAsync Holds)

/-! ### The trail of a run -/

/-- **The trail of a run**: its records, numbered as they were appended, those of them that are in the
buffer and in the log file, and for each switch the number of records before it. -/
structure Trail where
  log : List Record
  buf : List Record
  out : List Record
  switches : List ℕ

/-- The trail at the start. -/
def Trail.empty : Trail := ⟨[], [], [], []⟩

/-- An append: the record goes to the buffer in async mode, and to the log file in sync mode. -/
def Trail.append (h : Trail) (mlog : LogAppender) (data : Bytes) : Trail :=
  let r := (h.log.length, data)
  let h := { h with log := h.log ++ [r] }
  if mlog.sgMode = .async then { h with buf := h.buf ++ [r] }
  else { h with out := if mlog.sgLogdir = [] then h.out else h.out ++ [r] }

/-- A flush of the buffer to the log file. -/
def Trail.flush (h : Trail) (mlog : LogAppender) : Trail :=
  { h with buf := [], out := if mlog.sgLogdir = [] then h.out else h.out ++ h.buf }

/-- A switch. -/
def Trail.setmode (h : Trail) : Trail := { h with switches := h.switches ++ [h.log.length] }

/-- The trail after an operation. A `close` without a worker wipes what is in the buffer. -/
def follow (lc : Libc) (p : Proc) (h : Trail) : Op → Trail
  | .append _ log => h.append p.mlog (printed lc p.statics none log)
  | .appendEx _ log info => h.append p.mlog (printed lc p.statics info log)
  | .task _ => h.flush p.mlog
  | .flushSync _ => if p.mlog.sgMode = .sync then h else h.flush p.mlog
  | .setmode _ => h.setmode
  | .close worker _ =>
    if p.mlog.sgThreadAsync = .own ∧ worker.isNone then { h with buf := [] } else h.flush p.mlog
  | .open _ _ _ _ _ => h

/-- One operation, with the trail. -/
def trailStep (lc : Libc) (x : Proc × Trail) (op : Op) : Option (Proc × Trail) :=
  (step lc x.1 op).map fun p => (p, follow lc x.1 x.2 op)

/-- The operations of a run: writes to the file succeed, and an append in async mode finds the buffer
below 4/5 of the block. -/
def OpOk (x : Proc × Trail) : Op → Prop
  | .append env _ =>
    env.Succeeds ∧ (x.1.mlog.sgMode = .async → bufferLength x.1 < 153600 * 4 / 5)
  | .appendEx env _ _ =>
    env.Succeeds ∧ (x.1.mlog.sgMode = .async → bufferLength x.1 < 153600 * 4 / 5)
  | .task env => env.Succeeds
  | .flushSync env => env.Succeeds
  | .setmode _ => True
  | _ => False

/-- The last flush of `close` and its `__closelogfile` succeed; the own worker makes the flush, if `open` or a switch
has started it. -/
def CloseOk (th : ThreadAsync) (started : Prop) (worker : Option FileEnv) (env : FileEnv) : Prop :=
  env.fcloseStored = none ∧
    match th, worker with
    | .shared, _ => env.Succeeds
    | .own, some wenv => wenv.Succeeds
    | .own, none => ¬ started

/-- **The order across the switches**: no record from behind a switch is in the log file before one from in
front of it, and all records are in the file. -/
def KeepsOrder (h : Trail) : Prop :=
  ∀ k ∈ h.switches, h.out.Pairwise (fun r r' => ¬ (k ≤ r.1 ∧ r'.1 < k)) ∧ ∀ r ∈ h.log, r ∈ h.out

/-- An append in sync mode finds the buffer empty. -/
def EmptyForSync (x : Proc × Trail) : Op → Prop
  | .append _ _ => x.1.mlog.sgMode = .sync → buffered x.1 = []
  | .appendEx _ _ _ => x.1.mlog.sgMode = .sync → buffered x.1 = []
  | _ => True

def isAppend : Op → Bool
  | .append _ _ => true
  | .appendEx _ _ _ => true
  | _ => false

def isSwitch : Op → Bool
  | .setmode _ => true
  | _ => false

/-! ### The trail -/

/-- **What holds of the trail** in the directory `dir`, when the mode is `mode`. -/
structure Sound (dir : Bytes) (mode : AppendMode) (h : Trail) : Prop where
  number : ∀ r ∈ h.log, r.1 < h.log.length
  sorted : h.log.Pairwise fun r r' => r.1 < r'.1
  texts : ∀ r ∈ h.buf, r.2 ≠ []
  bound : ∀ k ∈ h.switches, k ≤ h.log.length
  buffers : ∀ r ∈ h.buf, r ∈ h.log
  split : mode = .sync → h.buf ≠ [] → ∃ k ∈ h.switches, ∀ r ∈ h.buf, r.1 < k
  all : dir ≠ [] → ∀ r ∈ h.log, r ∈ h.out ++ h.buf
  empty : dir = [] → h.out = []

/-- The records stand in the order of their appends, those in the log file first. -/
def InLine (h : Trail) : Prop := h.out ++ h.buf = h.log

/-- A record from behind a switch stands before one from in front of it. -/
def Swapped (h : Trail) : Prop :=
  ∃ k ∈ h.switches, ∃ r r', [r, r'].Sublist (h.out ++ h.buf) ∧ k ≤ r.1 ∧ r'.1 < k

section Trail

variable {dir : Bytes} {mode : AppendMode} {h h' : Trail}

theorem sound_empty (dir : Bytes) (mode : AppendMode) : Sound dir mode .empty := by
  have hnil : ∀ {α : Type} {q : α → Prop}, ∀ a ∈ ([] : List α), q a := fun _ ha => by cases ha
  exact ⟨hnil, .nil, hnil, hnil, hnil, fun _ hb => absurd rfl hb, fun _ => hnil, fun _ => rfl⟩

theorem Sound.append {mlog : LogAppender} (hh : Sound mlog.sgLogdir mlog.sgMode h) {data : Bytes}
    (hd : data ≠ []) : Sound mlog.sgLogdir mlog.sgMode (h.append mlog data) := by
  have hnumber : ∀ r ∈ h.log ++ [(h.log.length, data)], r.1 < (h.log ++ [(h.log.length, data)]).length := by
    intro r hr
    rw [List.length_append, List.length_singleton]
    rcases List.mem_append.mp hr with hr | hr
    · have := hh.number r hr; omega
    · rw [List.mem_singleton.mp hr]; omega
  have hsorted : (h.log ++ [(h.log.length, data)]).Pairwise fun r r' => r.1 < r'.1 := by
    refine List.pairwise_append.mpr ⟨hh.sorted, List.pairwise_singleton _ _, fun r hr r' hr' => ?_⟩
    rw [List.mem_singleton.mp hr']
    exact hh.number r hr
  have hbound : ∀ k ∈ h.switches, k ≤ (h.log ++ [(h.log.length, data)]).length := fun k hk =>
    (hh.bound k hk).trans (by simp)
  unfold Trail.append
  cases hm : mlog.sgMode with
  | async =>
    refine ⟨hnumber, hsorted, fun r hr => ?_, hbound, fun r hr => ?_, fun hs => (by cases hs),
      fun hdir r hr => ?_, hh.empty⟩
    · rcases List.mem_append.mp hr with hr | hr
      · exact hh.texts r hr
      · rw [List.mem_singleton.mp hr]; exact hd
    · rcases List.mem_append.mp hr with hr | hr
      · exact List.mem_append_left _ (hh.buffers r hr)
      · exact List.mem_append_right _ hr
    · rw [if_pos rfl, ← List.append_assoc]
      rcases List.mem_append.mp hr with hr | hr
      · exact List.mem_append_left _ (hh.all hdir r hr)
      · exact List.mem_append_right _ hr
  | sync =>
    refine ⟨hnumber, hsorted, hh.texts, hbound, fun r hr => List.mem_append_left _ (hh.buffers r hr),
      fun _ => hh.split hm, fun hdir r hr => ?_, fun hdir => ?_⟩
    · simp only [reduceCtorEq, if_false, if_neg hdir, List.mem_append] at hr ⊢
      rcases hr with hr | hr
      · rcases List.mem_append.mp (hh.all hdir r hr) with hr | hr
        exacts [.inl (.inl hr), .inr hr]
      · exact .inl (.inr hr)
    · simp only [reduceCtorEq, if_false, if_pos hdir]
      exact hh.empty hdir

theorem Sound.flush {mlog : LogAppender} (hh : Sound mlog.sgLogdir mode h) :
    Sound mlog.sgLogdir mode (h.flush mlog) := by
  have hnil : ∀ {q : Record → Prop}, ∀ r ∈ ([] : List Record), q r := fun _ hr => by cases hr
  refine ⟨hh.number, hh.sorted, hnil, hh.bound, hnil, fun _ hb => absurd rfl hb, fun hdir r hr => ?_,
    fun hdir => ?_⟩
  · simp only [Trail.flush, if_neg hdir, List.append_nil]
    exact hh.all hdir r hr
  · simp only [Trail.flush, if_pos hdir]
    exact hh.empty hdir

theorem Sound.setmode (hh : Sound dir mode h) (mode' : AppendMode) : Sound dir mode' h.setmode := by
  have hsub : ∀ k ∈ h.switches, k ∈ h.setmode.switches := fun k hk => List.mem_append_left _ hk
  refine ⟨hh.number, hh.sorted, hh.texts, fun k hk => ?_, hh.buffers, fun _ _ => ?_, hh.all, hh.empty⟩
  · rcases List.mem_append.mp hk with hk | hk
    · exact hh.bound k hk
    · rw [List.mem_singleton.mp hk]; exact Nat.le_refl _
  · exact ⟨h.log.length, List.mem_append_right _ (List.mem_singleton_self _), fun r hr =>
      hh.number r (hh.buffers r hr)⟩

theorem InLine.append {mlog : LogAppender} (hl : InLine h) (hdir : mlog.sgLogdir ≠ []) (data : Bytes)
    (hb : mlog.sgMode = .sync → h.buf = []) : InLine (h.append mlog data) := by
  unfold InLine Trail.append
  rw [← hl]
  cases hm : mlog.sgMode with
  | async => simp
  | sync => simp [hb hm, hdir]

theorem InLine.flush {mlog : LogAppender} (hl : InLine h) (hdir : mlog.sgLogdir ≠ []) :
    InLine (h.flush mlog) := by
  simpa [InLine, Trail.flush, hdir] using hl

theorem Swapped.mono (hs : Swapped h) (hk : ∀ k ∈ h.switches, k ∈ h'.switches)
    (hl : (h.out ++ h.buf).Sublist (h'.out ++ h'.buf)) : Swapped h' := by
  obtain ⟨k, hk', r, r', hrr, hr, hr'⟩ := hs
  exact ⟨k, hk k hk', r, r', hrr.trans hl, hr, hr'⟩

theorem Swapped.append {mlog : LogAppender} (hs : Swapped h) (data : Bytes) :
    Swapped (h.append mlog data) := by
  refine hs.mono (fun k hk => ?_) ?_
  · unfold Trail.append; split_ifs <;> exact hk
  · unfold Trail.append
    split_ifs
    · exact (List.Sublist.refl _).append (List.sublist_append_left _ _)
    · exact List.Sublist.refl _
    · exact (List.sublist_append_left _ _).append (List.Sublist.refl _)

theorem Swapped.flush {mlog : LogAppender} (hs : Swapped h) (hdir : mlog.sgLogdir ≠ []) :
    Swapped (h.flush mlog) := by
  refine hs.mono (fun k hk => hk) ?_
  simp [Trail.flush, hdir]

theorem Swapped.setmode (hs : Swapped h) : Swapped h.setmode :=
  hs.mono (fun _ hk => List.mem_append_left _ hk) (List.Sublist.refl _)

/-- **Overtaking**: a record that is appended in sync mode, with records in the buffer. -/
theorem Sound.overtakes {mlog : LogAppender} (hh : Sound mlog.sgLogdir mlog.sgMode h) (data : Bytes)
    (hm : mlog.sgMode = .sync) (hdir : mlog.sgLogdir ≠ []) (hb : h.buf ≠ []) :
    Swapped (h.append mlog data) := by
  obtain ⟨k, hk, hlt⟩ := hh.split hm hb
  obtain ⟨r', hr'⟩ := List.exists_mem_of_ne_nil _ hb
  refine ⟨k, ?_, (h.log.length, data), r', ?_, hh.bound k hk, hlt r' hr'⟩
  · simpa [Trail.append, hm] using hk
  · simp only [Trail.append, hm, reduceCtorEq, if_false, if_neg hdir]
    exact (List.sublist_append_right h.out [(h.log.length, data)]).append
      (List.singleton_sublist.mpr hr')

theorem InLine.keepsOrder (hl : InLine h) (hh : Sound dir mode h) (hb : h.buf = []) : KeepsOrder h := by
  have ho : h.out = h.log := by rw [← hl, hb, List.append_nil]
  intro k hk
  refine ⟨?_, fun r hr => ho ▸ hr⟩
  rw [ho]
  exact hh.sorted.imp fun hlt hc => by omega

theorem Swapped.not_keepsOrder (hs : Swapped h) (hb : h.buf = []) : ¬ KeepsOrder h := by
  obtain ⟨k, hk, r, r', hrr, hr, hr'⟩ := hs
  rw [hb, List.append_nil] at hrr
  intro hko
  exact List.rel_of_pairwise_cons ((hko k hk).1.sublist hrr) (List.mem_singleton_self r') ⟨hr, hr'⟩

end Trail

/-! ### One operation -/

/-- **The appender against the trail**: the content of the buffer is the records in it, and the log file
has grown, with what its `FILE` holds, by the records that are out. -/
structure Tied (p₀ : Proc) (x : Proc × Trail) : Prop where
  opened : ∃ lb, Opened x.1 lb ∧ lb.content = bytes x.2.buf
  same : SameSession p₀ x.1
  file : (sink x.1).all = (sink p₀).all ++ bytes x.2.out

/-- What holds in a run from the appender `p₀` on. -/
structure Kept (p₀ : Proc) (x : Proc × Trail) : Prop extends Tied p₀ x where
  sound : Sound x.1.mlog.sgLogdir x.1.mlog.sgMode x.2

section Steps

variable {lc : Libc} {p₀ p p' : Proc} {h : Trail} {env : FileEnv}

theorem bytes_landed (mlog : LogAppender) (out l : List Record) :
    bytes out ++ landed mlog (bytes l) = bytes (if mlog.sgLogdir = [] then out else out ++ l) := by
  unfold landed
  split_ifs
  · exact List.append_nil _
  · exact (bytes_append out l).symm

theorem bytes_singleton (r : Record) : bytes [r] = r.2 := by simp [bytes]

theorem bytes_trail_append (h : Trail) (mlog : LogAppender) (data : Bytes) :
    bytes (h.append mlog data).buf = bytes h.buf ++ (if mlog.sgMode = .async then data else []) ∧
      bytes (h.append mlog data).out =
        bytes h.out ++ (if mlog.sgMode = .async then [] else landed mlog data) := by
  unfold Trail.append
  split_ifs <;> simp [landed, bytes_append, bytes_singleton, *]

theorem Kept.append (hh : Kept p₀ (p, h)) (henv : env.Succeeds)
    (hlt : p.mlog.sgMode = .async → bufferLength p < 153600 * 4 / 5) {log : Option CStr}
    {info : Option LogInfo} (hs : logAppenderAppendEx lc env log info p = some p') :
    Kept p₀ (p', h.append p.mlog (printed lc p.statics info log)) ∧ p'.mlog.sgMode = p.mlog.sgMode := by
  obtain ⟨lb, ho, hc⟩ := hh.opened
  obtain ⟨data, hp⟩ := logAppenderAppendEx_printed ho hs
  have hne : data ≠ [] := by
    obtain ⟨logBuff, -, hr, rfl⟩ := hp
    exact hr.content_ne_nil
  have htrail := bytes_trail_append h p.mlog data
  rw [printed_of hp]
  cases hm : p.mlog.sgMode with
  | sync =>
    obtain ⟨p₁, hp₁, he⟩ := appendEx_sync_effect env ho hm hp
    cases hp₁.symm.trans hs
    simp only [hm, reduceCtorEq, if_false, List.append_nil] at htrail
    refine ⟨⟨⟨⟨lb, he.opened ho.flag, by rw [hc, htrail.1]⟩, hh.same.next he, ?_⟩, ?_⟩, he.mode.trans hm⟩
    · rw [he.sink, all_writeBack henv, hh.file, htrail.2, List.append_assoc]
    · rw [he.dir, he.mode]
      exact hh.sound.append hne
  | async =>
    have hlt' := hlt hm
    rw [ho.bufferLength] at hlt'
    obtain ⟨p₁, entry, hp₁, he, hent, -, hlen, hdata⟩ := appendEx_async_effect env ho hm hp
    cases hp₁.symm.trans hs
    obtain rfl := hdata (by omega)
    simp only [hm, if_true, List.append_nil] at htrail
    refine ⟨⟨⟨⟨_, he.opened ho.flag, ?_⟩, hh.same.next he, ?_⟩, ?_⟩, he.mode.trans hm⟩
    · rw [ho.good.content_write hent (by omega), ho.cap, List.take_of_length_le, hc, htrail.1]
      rw [List.length_append, ho.good.length_content]
      omega
    · rw [he.sink, hh.file, htrail.2]
    · rw [he.dir, he.mode]
      exact hh.sound.append hne

theorem Kept.flush (hh : Kept p₀ (p, h)) (henv : env.Succeeds)
    (hs : logThreadTask lc env p = some p') :
    Kept p₀ (p', h.flush p.mlog) ∧ p'.mlog.sgMode = p.mlog.sgMode := by
  obtain ⟨lb, ho, hc⟩ := hh.opened
  obtain ⟨p₁, hp₁, he⟩ := logThreadTask_effect ho.toLive lc env
  cases hp₁.symm.trans hs
  refine ⟨⟨⟨⟨_, he.opened ho.flag, LogBuffer.content_clear lb⟩, hh.same.next he, ?_⟩, ?_⟩, he.mode⟩
  · rw [he.sink, all_writeBack henv, hc, hh.file, List.append_assoc, bytes_landed]
    rfl
  · rw [he.dir, he.mode]
    exact hh.sound.flush

/-- The mode after an operation. -/
def modeAfter (mode : AppendMode) : Op → AppendMode
  | .setmode mode' => mode'
  | _ => mode

/-- **Every operation keeps it.** -/
theorem Kept.step {x x' : Proc × Trail} {op : Op} (hh : Kept p₀ x) (hop : OpOk x op)
    (hs : trailStep lc x op = some x') :
    Kept p₀ x' ∧ x'.1.mlog.sgMode = modeAfter x.1.mlog.sgMode op := by
  obtain ⟨p', hstep, rfl⟩ := Option.map_eq_some_iff.mp hs
  cases op with
  | «open» => exact hop.elim
  | append env log => exact hh.append hop.1 hop.2 hstep
  | appendEx env log info => exact hh.append hop.1 hop.2 hstep
  | task env => exact hh.flush hop hstep
  | flushSync env =>
    rw [Appender.step, logAppenderFlushSync_eq] at hstep
    rw [follow]
    split_ifs at hstep ⊢
    · cases hstep; exact ⟨hh, rfl⟩
    · exact hh.flush hop hstep
  | setmode mode =>
    cases hstep
    obtain ⟨lb, ho, hc⟩ := hh.opened
    exact ⟨⟨⟨⟨lb, ho.setmode mode, hc⟩, ⟨hh.same.dir, hh.same.name, hh.same.thread⟩, hh.file⟩,
      hh.sound.setmode mode⟩, rfl⟩
  | close => exact hop.elim

theorem Kept.buffered {x : Proc × Trail} (hh : Kept p₀ x) : buffered x.1 = [] ↔ x.2.buf = [] := by
  obtain ⟨lb, ho, hc⟩ := hh.opened
  rw [ho.buffered, hc, bytes_eq_nil_iff hh.sound.texts]

theorem InLine.step {x x' : Proc × Trail} {op : Op} (hl : InLine x.2) (hh : Kept p₀ x)
    (hdir : x.1.mlog.sgLogdir ≠ []) (hop : OpOk x op) (he : EmptyForSync x op)
    (hs : trailStep lc x op = some x') : InLine x'.2 := by
  obtain ⟨p', -, rfl⟩ := Option.map_eq_some_iff.mp hs
  cases op with
  | «open» => exact hop.elim
  | append env log => exact hl.append hdir _ fun hm => hh.buffered.mp (he hm)
  | appendEx env log info => exact hl.append hdir _ fun hm => hh.buffered.mp (he hm)
  | task env => exact hl.flush hdir
  | flushSync env =>
    simp only [follow]
    split_ifs
    · exact hl
    · exact hl.flush hdir
  | setmode mode => exact hl
  | close => exact hop.elim

/-- An operation that breaks the condition overtakes a record. -/
theorem Kept.overtakes {x x' : Proc × Trail} {op : Op} (hh : Kept p₀ x)
    (hdir : x.1.mlog.sgLogdir ≠ []) (he : ¬ EmptyForSync x op) (hs : trailStep lc x op = some x') :
    Swapped x'.2 := by
  obtain ⟨p', -, rfl⟩ := Option.map_eq_some_iff.mp hs
  have hover : ∀ data, ¬ (x.1.mlog.sgMode = .sync → Session.buffered x.1 = []) →
      Swapped (x.2.append x.1.mlog data) := by
    intro data hn
    obtain ⟨hm, hb⟩ := Classical.not_imp.mp hn
    exact hh.sound.overtakes data hm hdir fun h0 => hb (hh.buffered.mpr h0)
  cases op with
  | append env log => exact hover _ he
  | appendEx env log info => exact hover _ he
  | _ => exact absurd trivial he

/-- What is overtaken stays so. -/
theorem Swapped.step {x x' : Proc × Trail} {op : Op} (hw : Swapped x.2)
    (hdir : x.1.mlog.sgLogdir ≠ []) (hop : OpOk x op) (hs : trailStep lc x op = some x') :
    Swapped x'.2 := by
  obtain ⟨p', -, rfl⟩ := Option.map_eq_some_iff.mp hs
  cases op with
  | «open» => exact hop.elim
  | append env log => exact hw.append _
  | appendEx env log info => exact hw.append _
  | task env => exact hw.flush hdir
  | flushSync env =>
    simp only [follow]
    split_ifs
    · exact hw
    · exact hw.flush hdir
  | setmode mode => exact hw.setmode
  | close => exact hop.elim

theorem Kept.sync_step {x x' : Proc × Trail} {op : Op} (hh : Kept p₀ x)
    (hm : x.1.mlog.sgMode = .sync) (hb : x.2.buf = []) (hop : OpOk x op) (hne : op ≠ .setmode .async)
    (hs : trailStep lc x op = some x') : x'.1.mlog.sgMode = .sync ∧ x'.2.buf = [] := by
  have hmode := (hh.step hop hs).2
  obtain ⟨p', -, rfl⟩ := Option.map_eq_some_iff.mp hs
  rw [hmode, hm]
  cases op with
  | «open» => exact hop.elim
  | append env log => exact ⟨rfl, by simp [follow, Trail.append, hm, hb]⟩
  | appendEx env log info => exact ⟨rfl, by simp [follow, Trail.append, hm, hb]⟩
  | task env => exact ⟨rfl, rfl⟩
  | flushSync env => exact ⟨rfl, by simp [follow, hm, hb]⟩
  | setmode mode =>
    cases mode with
    | async => exact absurd rfl hne
    | sync => exact ⟨rfl, hb⟩
  | close => exact hop.elim

/-- **`close`** writes what is left in the buffer. -/
theorem Kept.close {x x' : Proc × Trail} (hh : Kept p₀ x) {worker : Option FileEnv} (started : Prop)
    (hclose : CloseOk x.1.mlog.sgThreadAsync started worker env) (hb : ¬ started → x.2.buf = [])
    (hs : trailStep lc x (.close worker env) = some x') :
    x'.2 = x.2.flush x.1.mlog ∧ logFile x'.1 = (sink p₀).all ++ bytes x'.2.out := by
  obtain ⟨p', hstep, rfl⟩ := Option.map_eq_some_iff.mp hs
  obtain ⟨lb, ho, hc⟩ := hh.opened
  obtain ⟨p₁, hp₁, -, hd, hn, hf⟩ := logAppenderClose_spec ho lc worker env
  cases hp₁.symm.trans hstep
  obtain ⟨hfclose, hclose⟩ := hclose
  rw [hfclose, Sink.out_close] at hf
  have hland : ∀ env : FileEnv, env.Succeeds →
      (writeBack lc env x.1.mlog lb.content (sink x.1)).all = (sink p₀).all ++ bytes (x.2.flush x.1.mlog).out := by
    intro env henv
    rw [all_writeBack henv, hh.file, List.append_assoc, hc, bytes_landed]
    rfl
  have hlast : follow lc x.1 x.2 (.close worker env) = x.2.flush x.1.mlog ∧
      (closeBack lc worker env x.1.mlog lb.content (sink x.1)).all =
        (sink p₀).all ++ bytes (x.2.flush x.1.mlog).out := by
    unfold closeBack
    simp only [follow]
    cases hth : x.1.mlog.sgThreadAsync with
    | shared =>
      rw [hth] at hclose
      refine ⟨if_neg ?_, hland env hclose⟩
      simp
    | own =>
      rw [hth] at hclose
      cases worker with
      | some wenv =>
        refine ⟨if_neg ?_, hland wenv hclose⟩
        simp
      | none =>
        -- the buffer has never had a record
        have h0 : x.2.flush x.1.mlog = { x.2 with buf := [] } := by
          simp only [Trail.flush, hb hclose, List.append_nil, ite_self]
        exact ⟨by simp [h0], by rw [h0]; exact hh.file⟩
  rw [hf, hlast.2]
  exact ⟨hlast.1, by rw [hlast.1]⟩

end Steps

/-! ### Runs -/

section Runs

variable {lc : Libc} {mode : AppendMode} {p : Proc} {ops : List Op} {x : Proc × Trail}

theorem kept_of_openedIn (hp : OpenedIn lc mode p) : Kept p (p, .empty) := by
  obtain ⟨lb, ho, hc, -⟩ := hp.spec
  exact ⟨⟨⟨lb, ho, hc⟩, .refl p, (List.append_nil _).symm⟩, sound_empty _ _⟩

theorem kept_of_run (hp : OpenedIn lc mode p) (hops : Meets (trailStep lc) OpOk (p, .empty) ops)
    (hr : run (trailStep lc) (p, .empty) ops = some x) : Kept p x :=
  (reach_of_run hops hr).inv (kept_of_openedIn hp) fun _ _ _ hk hc hs => (hk.step hc hs).1

theorem buf_of_sync (hp : OpenedIn lc mode p) (hops : Meets (trailStep lc) OpOk (p, .empty) ops)
    (hr : run (trailStep lc) (p, .empty) ops = some x)
    (hsync : ¬ (mode = .async ∨ .setmode .async ∈ ops)) : x.2.buf = [] := by
  obtain ⟨lb, ho, hc, hm, -⟩ := hp.spec
  obtain ⟨hmode, hmem⟩ := not_or.mp hsync
  have hmode' : p.mlog.sgMode = .sync := by
    rw [hm]; cases mode with
    | async => exact absurd rfl hmode
    | sync => rfl
  have hne : Meets (trailStep lc) (fun _ op => op ≠ .setmode .async) (p, .empty) ops :=
    meets_of_forall fun op hop h0 => hmem (h0 ▸ hop)
  exact ((reach_of_run (hops.and hne) hr).inv
    (P := fun x => Kept p x ∧ x.1.mlog.sgMode = .sync ∧ x.2.buf = [])
    ⟨kept_of_openedIn hp, hmode', rfl⟩
    fun _ _ _ h hc hs => ⟨(h.1.step hc.1 hs).1, h.1.sync_step h.2.1 h.2.2 hc.1 hc.2 hs⟩).2.2

/-- **The order of a run**: the condition was met at every append, or a record has been overtaken. -/
theorem order_of_run (hp : OpenedIn lc mode p) (hdir : p.mlog.sgLogdir ≠ [])
    (hops : Meets (trailStep lc) OpOk (p, .empty) ops)
    (hr : run (trailStep lc) (p, .empty) ops = some x) :
    Meets (trailStep lc) EmptyForSync (p, .empty) ops ∨ Swapped x.2 :=
  meets_or_of_run (P := Kept p) (Q := fun x => Swapped x.2)
    (fun _ _ _ hk hc hs => (hk.step hc hs).1)
    (fun _ _ _ hk _ hd hs => hk.overtakes (hk.same.dir ▸ hdir) hd hs)
    (fun _ _ _ hk hw hc hs => hw.step (hk.same.dir ▸ hdir) hc hs) (kept_of_openedIn hp) hops hr

theorem inLine_of_run (hp : OpenedIn lc mode p) (hdir : p.mlog.sgLogdir ≠ [])
    (hops : Meets (trailStep lc) OpOk (p, .empty) ops)
    (hempty : Meets (trailStep lc) EmptyForSync (p, .empty) ops)
    (hr : run (trailStep lc) (p, .empty) ops = some x) : InLine x.2 :=
  ((reach_of_run (hops.and hempty) hr).inv (P := fun x => Kept p x ∧ InLine x.2)
    ⟨kept_of_openedIn hp, rfl⟩ fun _ _ _ h hc hs =>
      ⟨(h.1.step hc.1 hs).1, h.2.step h.1 (h.1.same.dir ▸ hdir) hc.1 hc.2 hs⟩).2

theorem log_eq_nil_iff (hr : run (trailStep lc) (p, .empty) ops = some x) :
    x.2.log = [] ↔ ∀ op ∈ ops, isAppend op = false := by
  have happend : ∀ (h : Trail) mlog data, (h.append mlog data).log ≠ [] := by
    intro h mlog data
    unfold Trail.append
    split_ifs <;> simp
  have h := run_iff_forall (Q := fun x => x.2.log = []) (b := isAppend) (fun x op x' hs => ?_) hr
  · simpa [Trail.empty] using h
  · obtain ⟨p', -, rfl⟩ := Option.map_eq_some_iff.mp hs
    cases op <;> simp only [follow, isAppend] <;> (try split_ifs) <;>
      simp [happend, Trail.flush, Trail.setmode]

theorem switches_eq_nil_iff (hr : run (trailStep lc) (p, .empty) ops = some x) :
    x.2.switches = [] ↔ ∀ op ∈ ops, isSwitch op = false := by
  have happend : ∀ (h : Trail) mlog data, (h.append mlog data).switches = h.switches := by
    intro h mlog data
    unfold Trail.append
    split_ifs <;> rfl
  have h := run_iff_forall (Q := fun x => x.2.switches = []) (b := isSwitch)
    (fun x op x' hs => ?_) hr
  · simpa [Trail.empty] using h
  · obtain ⟨p', -, rfl⟩ := Option.map_eq_some_iff.mp hs
    cases op <;> simp only [follow, isSwitch] <;> (try split_ifs) <;>
      simp [happend, Trail.flush, Trail.setmode]

theorem close_of_run (hp : OpenedIn lc mode p) (hops : Meets (trailStep lc) OpOk (p, .empty) ops)
    {worker : Option FileEnv} {env : FileEnv}
    (hclose : CloseOk p.mlog.sgThreadAsync (mode = .async ∨ .setmode .async ∈ ops) worker env)
    {x' : Proc × Trail}
    (hr : run (trailStep lc) (p, .empty) (ops ++ [.close worker env]) = some x') :
    ∃ x, run (trailStep lc) (p, .empty) ops = some x ∧ Kept p x ∧ x'.2 = x.2.flush p.mlog ∧
      logFile x'.1 = (sink p).all ++ bytes x'.2.out := by
  rw [run_append] at hr
  obtain ⟨x, hrun, hlast⟩ := Option.bind_eq_some_iff.mp hr
  obtain ⟨x₁, hs, hx₁⟩ := Option.bind_eq_some_iff.mp hlast
  cases hx₁
  have hk := kept_of_run hp hops hrun
  obtain ⟨hflush, hfile⟩ := hk.close (mode = .async ∨ .setmode .async ∈ ops)
    (by rw [hk.same.thread]; exact hclose) (buf_of_sync hp hops hrun) hs
  refine ⟨x, hrun, hk, ?_, hfile⟩
  rw [hflush, Trail.flush, Trail.flush, hk.same.dir]

theorem keepsOrder_of_out_nil {h : Trail} (ho : h.out = []) :
    KeepsOrder h ↔ h.log = [] ∨ h.switches = [] := by
  unfold KeepsOrder
  rw [ho]
  constructor
  · intro hk
    by_cases hl : h.log = []
    · exact .inl hl
    · obtain ⟨r, hr⟩ := List.exists_mem_of_ne_nil _ hl
      exact .inr (List.eq_nil_iff_forall_not_mem.mpr fun k hkm => by cases (hk k hkm).2 r hr)
  · rintro (hl | hs) k hk
    · exact ⟨.nil, fun r hr => by rw [hl] at hr; cases hr⟩
    · rw [hs] at hk; cases hk

/-- **The mode switches and the order of the records.** From an appender just opened in either mode, through
every run of appends, switches and flushes, and then `close`: the records on both sides of every switch are
in the log file and in order exactly if every append in sync mode found the buffer empty; in the empty
directory, exactly if nothing was appended or the mode never switched. -/
theorem switches_keep_order_iff (hp : OpenedIn lc mode p)
    (hops : Meets (trailStep lc) OpOk (p, .empty) ops) {worker : Option FileEnv} {env : FileEnv}
    (hclose : CloseOk p.mlog.sgThreadAsync (mode = .async ∨ .setmode .async ∈ ops) worker env)
    (hr : run (trailStep lc) (p, .empty) (ops ++ [.close worker env]) = some x) :
    logFile x.1 = (sink p).all ++ bytes x.2.out ∧
      (KeepsOrder x.2 ↔
        if p.mlog.sgLogdir = [] then
          (∀ op ∈ ops, isAppend op = false) ∨ (∀ op ∈ ops, isSwitch op = false)
        else Meets (trailStep lc) EmptyForSync (p, .empty) ops) := by
  obtain ⟨y, hrun, hk, hflush, hfile⟩ := close_of_run hp hops hclose hr
  have hsound := hk.sound
  rw [hk.same.dir] at hsound
  refine ⟨hfile, ?_⟩
  rw [hflush]
  split_ifs with hdir
  · have ho : (y.2.flush p.mlog).out = [] := by
      simp only [Trail.flush, if_pos hdir]
      exact hsound.empty hdir
    rw [keepsOrder_of_out_nil ho, ← log_eq_nil_iff hrun, ← switches_eq_nil_iff hrun]
    rfl
  · constructor
    · intro hko
      refine (order_of_run hp hdir hops hrun).resolve_right fun hw => ?_
      exact (hw.flush hdir).not_keepsOrder rfl hko
    · intro hempty
      have hl := inLine_of_run hp hdir hops hempty hrun
      exact (hl.flush hdir).keepsOrder hsound.flush rfl


/-- The operations with bodies that are not empty. -/
def HasBody : Op → Prop
  | .append _ (some body) => body.bytes ≠ []
  | .append _ none => False
  | .appendEx _ _ _ => False
  | _ => True

theorem Kept.total {p₀ : Proc} (hk : Kept p₀ x) (lc : Libc) {op : Op} (hop : OpOk x op ∨ ∃ w env, op = .close w env)
    (hb : HasBody op) : ∃ x', trailStep lc x op = some x' := by
  obtain ⟨lb, ho, -⟩ := hk.opened
  suffices h : ∃ p', Appender.step lc x.1 op = some p' by
    obtain ⟨p', hs⟩ := h
    exact ⟨_, by rw [trailStep, hs]; rfl⟩
  have htask : ∀ env, ∃ p', logThreadTask lc env x.1 = some p' := fun env => by
    obtain ⟨p', hs, -⟩ := logThreadTask_effect ho.toLive lc env
    exact ⟨p', hs⟩
  cases op with
  | «open» => exact absurd hop (by simp [OpOk])
  | append env log =>
    cases log with
    | none => exact hb.elim
    | some body =>
      have hp := printed_none lc x.1.statics hb
      cases hm : x.1.mlog.sgMode with
      | sync =>
        obtain ⟨p', hs, -⟩ := appendEx_sync_effect env ho hm hp
        exact ⟨p', hs⟩
      | async =>
        obtain ⟨p', entry, hs, -⟩ := appendEx_async_effect env ho hm hp
        exact ⟨p', hs⟩
  | appendEx env log info => exact hb.elim
  | task env => exact htask env
  | flushSync env =>
    rw [Appender.step, logAppenderFlushSync_eq]
    split_ifs
    · exact ⟨_, rfl⟩
    · exact htask env
  | setmode mode => exact ⟨_, rfl⟩
  | close worker env =>
    obtain ⟨p', hs, -⟩ := logAppenderClose_spec ho lc worker env
    exact ⟨p', hs⟩

/-- **Such runs exist**, with `close` at the end. -/
theorem exists_run (hp : OpenedIn lc mode p) (hops : Meets (trailStep lc) OpOk (p, .empty) ops)
    (hb : ∀ op ∈ ops, HasBody op) (worker : Option FileEnv) (env : FileEnv) :
    ∃ x, run (trailStep lc) (p, .empty) (ops ++ [.close worker env]) = some x := by
  obtain ⟨x, hr, hk⟩ := run_total (P := fun _ x => Kept p x) (kept_of_openedIn hp)
    (fun _ x op hk hop => by
      obtain ⟨x', hs⟩ := hk.total lc (.inl hop.1) hop.2
      exact ⟨x', hs, (hk.step hop.1 hs).1⟩)
    (hops.and (meets_of_forall (D := HasBody) hb))
  have hb : HasBody (.close worker env) := trivial
  obtain ⟨x', hs⟩ := hk.total lc (.inr ⟨_, _, rfl⟩) hb
  exact ⟨x', run_trans hr (run_of_step hs rfl)⟩

/-- An append in async mode, maybe a flush, and an append in sync mode. -/
def acrossSwitch (flush : List Op) : List Op :=
  .append .ok (some textA) :: (flush ++ [.setmode .sync, .append .ok (some textA)])

theorem hasBody_acrossSwitch {flush : List Op} (hf : ∀ op ∈ flush, op = .task .ok) :
    ∀ op ∈ acrossSwitch flush, HasBody op := by
  intro op hop
  simp only [acrossSwitch, List.mem_cons, List.mem_append, List.not_mem_nil, or_false] at hop
  rcases hop with rfl | hop | rfl | rfl
  · exact show textA.bytes ≠ [] by decide
  · rw [hf op hop]; trivial
  · trivial
  · exact show textA.bytes ≠ [] by decide

theorem meets_setmode_append (lc : Libc) (x : Proc × Trail) :
    Meets (trailStep lc) OpOk x [.setmode .sync, .append .ok (some textA)] := by
  refine ⟨trivial, fun x' hs => ⟨⟨FileEnv.succeeds_ok, fun hm => ?_⟩, fun _ _ => trivial⟩⟩
  cases hs
  cases hm

theorem bufferLength_of_openedIn (hp : OpenedIn lc mode p) : bufferLength p < 153600 * 4 / 5 := by
  obtain ⟨lb, ho, hc, -⟩ := hp.spec
  rw [ho.bufferLength, ho.good.content_eq_nil_iff.mp hc]
  decide

theorem exists_openedIn (lc : Libc) : ∃ p, OpenedIn lc .async p ∧ p.mlog.sgLogdir ≠ [] ∧
    p.mlog.sgThreadAsync = .shared := by
  have hc : Closed fresh := closed_create _ _ _
  have hr : Reachable lc fresh := ⟨_, _, _, .refl⟩
  obtain ⟨p, hs, -, hd, -, -, hth, -⟩ :=
    logAppenderOpen_spec hc lc .ok (fun _ => rfl) .ok .async textA textA
  exact ⟨p, ⟨fresh, .ok, .ok, textA, textA, hr, rfl, hs⟩, by rw [hd]; decide, hth⟩

theorem emptyForSync_setmode_append {p₀ : Proc} (hk : Kept p₀ x) :
    Meets (trailStep lc) EmptyForSync x [.setmode .sync, .append .ok (some textA)] ↔ x.2.buf = [] := by
  rw [← hk.buffered]
  constructor
  · intro h
    exact (h.2 _ rfl).1 rfl
  · refine fun hb => ⟨trivial, fun x' hs => ⟨fun _ => ?_, fun _ _ => trivial⟩⟩
    cases hs
    exact hb

theorem switches_keep_order_iff_flushed :
    ∃ p x, OpenedIn utc .async p ∧
      run (trailStep utc) (p, .empty) (acrossSwitch [.task .ok] ++ [.close none .ok]) = some x ∧
      KeepsOrder x.2 := by
  obtain ⟨p, hp, hdir, hth⟩ := exists_openedIn utc
  have hok : OpOk (p, .empty) (.append .ok (some textA)) :=
    ⟨FileEnv.succeeds_ok, fun _ => bufferLength_of_openedIn hp⟩
  have hops : Meets (trailStep utc) OpOk (p, .empty) (acrossSwitch [.task .ok]) :=
    ⟨hok, fun x₁ _ => ⟨FileEnv.succeeds_ok, fun x₂ _ => meets_setmode_append utc x₂⟩⟩
  have hclose : CloseOk p.mlog.sgThreadAsync
      (AppendMode.async = .async ∨ .setmode .async ∈ acrossSwitch [.task .ok]) none .ok := by
    rw [hth]; exact ⟨rfl, FileEnv.succeeds_ok⟩
  obtain ⟨x, hr⟩ := exists_run hp hops (hasBody_acrossSwitch fun op hop => List.mem_singleton.mp hop)
    none .ok
  refine ⟨p, x, hp, hr, (switches_keep_order_iff hp hops hclose hr).2.mpr ?_⟩
  rw [if_neg hdir]
  refine ⟨fun hm => ?_, fun x₁ hs₁ => ⟨trivial, fun x₂ hs₂ => ?_⟩⟩
  · obtain ⟨lb, ho, hc, -⟩ := hp.spec
    rw [ho.buffered, hc]
  · have hk₁ := ((kept_of_openedIn hp).step hok hs₁).1
    have hok₂ : OpOk x₁ (.task .ok) := FileEnv.succeeds_ok
    have hk₂ := (hk₁.step hok₂ hs₂).1
    refine (emptyForSync_setmode_append hk₂).mpr ?_
    obtain ⟨p₂, -, rfl⟩ := Option.map_eq_some_iff.mp hs₂
    rfl

/-- A record that is appended in sync mode overtakes one from the async mode. -/
theorem switches_overtake :
    ∃ p x, OpenedIn utc .async p ∧ Meets (trailStep utc) OpOk (p, .empty) (acrossSwitch []) ∧
      run (trailStep utc) (p, .empty) (acrossSwitch [] ++ [.close none .ok]) = some x ∧
      ¬ KeepsOrder x.2 := by
  obtain ⟨p, hp, hdir, hth⟩ := exists_openedIn utc
  have hok : OpOk (p, .empty) (.append .ok (some textA)) :=
    ⟨FileEnv.succeeds_ok, fun _ => bufferLength_of_openedIn hp⟩
  have hops : Meets (trailStep utc) OpOk (p, .empty) (acrossSwitch []) :=
    ⟨hok, fun x₁ _ => meets_setmode_append utc x₁⟩
  have hclose : CloseOk p.mlog.sgThreadAsync
      (AppendMode.async = .async ∨ .setmode .async ∈ acrossSwitch []) none .ok := by
    rw [hth]; exact ⟨rfl, FileEnv.succeeds_ok⟩
  obtain ⟨x, hr⟩ := exists_run hp hops (hasBody_acrossSwitch fun op hop => by cases hop) none .ok
  refine ⟨p, x, hp, hops, hr, ?_⟩
  obtain ⟨y, hrun, -, hflush, -⟩ := close_of_run hp hops hclose hr
  rw [hflush]
  refine Swapped.not_keepsOrder (Swapped.flush ?_ hdir) rfl
  refine (order_of_run hp hdir hops hrun).resolve_left fun hempty => ?_
  obtain ⟨x₁, hs₁, -⟩ := Option.bind_eq_some_iff.mp hrun
  have hk₁ := ((kept_of_openedIn hp).step hok hs₁).1
  have hb := (emptyForSync_setmode_append hk₁).mp (hempty.2 x₁ hs₁)
  obtain ⟨lb, ho, -, hm, -⟩ := hp.spec
  obtain ⟨p₁, -, rfl⟩ := Option.map_eq_some_iff.mp hs₁
  simp [follow, Trail.append, hm] at hb

end Runs

end MTAppenderFile.Loglib.Switches
