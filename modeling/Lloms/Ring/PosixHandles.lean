import Lloms.Ring.PosixShm

/-! Descriptors and mappings are never leaked and never given back twice: what the
kernel has open and mapped for a process is what its objects and its running call
have, each of it in one place. No mapping reaches past the end of its segment. -/
namespace Lloms.PosixShm
open Lib

/-! ## Who has what -/

def PosixSharedMemory.fd? (x : PosixSharedMemory) : Option Int := if x.fd ≥ 0 then some x.fd else none

/-- The mapping and its length. -/
def PosixSharedMemory.mapping? (x : PosixSharedMemory) : Option (UInt64 × UInt64) :=
  if x.addr ≠ 0 then some (x.addr, x.size) else none

/-- The name to remove. -/
def PosixSharedMemory.owned? (x : PosixSharedMemory) : Option String :=
  if x.owner then some x.name else none

/-- The descriptor in the running call's hands. -/
def Pc.fd? : Pc → Option Int
  | .createTruncate _ _ _ fd | .createMap _ _ _ fd | .createClose _ _ _ fd
  | .existingStat _ _ _ fd | .existingMap _ _ _ fd | .existingClose _ _ _ fd => some fd
  | _ => none

/-- The name that a running `create` has made. -/
def Pc.owned? : Pc → Option String
  | .createTruncate _ name _ _ | .createMap _ name _ _ | .createClose _ name _ _
  | .createUnlink _ name _ => some name
  | _ => none

/-- The descriptor of an object, or of the running call. -/
def Proc.hasFd (q : Proc) : Option Var → Option Int
  | none => q.pc.fd?
  | some v => (q.vars v).bind PosixSharedMemory.fd?

def Proc.hasMap (q : Proc) (v : Var) : Option (UInt64 × UInt64) :=
  (q.vars v).bind PosixSharedMemory.mapping?

/-- The name an object, or the running call, will have to remove. -/
def Proc.hasName (q : Proc) : Option Var → Option String
  | none => q.pc.owned?
  | some v => (q.vars v).bind PosixSharedMemory.owned?

@[simp] theorem hasFd_none (q : Proc) : q.hasFd none = q.pc.fd? := rfl

@[simp] theorem hasFd_some (q : Proc) (v : Var) :
    q.hasFd (some v) = (q.vars v).bind PosixSharedMemory.fd? := rfl

@[simp] theorem hasName_none (q : Proc) : q.hasName none = q.pc.owned? := rfl

@[simp] theorem hasName_some (q : Proc) (v : Var) :
    q.hasName (some v) = (q.vars v).bind PosixSharedMemory.owned? := rfl

/-- The books of one process. -/
structure Proc.Books (k : Kernel) (q : Proc) : Prop where
  fds : Accounted (fun fd => q.fds fd ≠ none) q.hasFd fun _ => False
  maps : Accounted (fun r => ∃ seg, q.maps r.1 = some (r.2, seg)) q.hasMap fun _ => False
  made : ∀ {fd seg}, q.fds fd = some seg → 0 ≤ fd ∧ seg < k.made
  fits : ∀ {addr size seg}, q.maps addr = some (size, seg) →
    addr ≠ 0 ∧ seg < k.made ∧ size ≤ k.sizes seg

/-- The object that `v` is to be made from is there. -/
def After.Ok (q : Proc) (v : Var) : After → Prop
  | .assign src _ _ => q.vars src ≠ none ∧ v ≠ src
  | _ => True

/-- What a running call can rely on. -/
def Pc.Ok (k : Kernel) (q : Proc) : Pc → Prop
  | .idle => True
  | .createOpen v _ _ | .createClose v _ _ _ | .createUnlink v _ _ | .existingOpen v _ _
  | .existingStat v _ _ _ | .existingClose v _ _ _ => q.vars v = none
  | .createTruncate v _ _ fd => q.vars v = none ∧ ∃ seg, q.fds fd = some seg ∧ k.sizes seg = 0
  | .createMap v _ bytes fd | .existingMap v _ bytes fd =>
    q.vars v = none ∧ ∃ seg, q.fds fd = some seg ∧ bytes ≤ k.sizes seg
  | .closeMap v after => q.vars v ≠ none ∧ after.Ok q v
  | .closeFd v after => (∃ x, q.vars v = some x ∧ x.addr = 0) ∧ after.Ok q v
  | .closeName v after => (∃ x, q.vars v = some x ∧ x.addr = 0 ∧ x.fd < 0) ∧ after.Ok q v

structure Proc.Ok (k : Kernel) (q : Proc) : Prop where
  books : q.Books k
  pc : q.pc.Ok k q

/-- Every name leads to a segment. -/
def Kernel.Named (k : Kernel) : Prop := ∀ name seg, k.names name = some seg → seg < k.made

/-- The segment a process is about to give its size. -/
def Proc.sizing (q : Proc) : Option Seg :=
  match q.pc with
  | .createTruncate _ _ _ fd => q.fds fd
  | _ => none

section Books

variable {k k' : Kernel} {q q' : Proc} {v : Var} {x : PosixSharedMemory} {after : After}

/-- A step that touches no descriptor and no mapping. -/
theorem Proc.Books.quiet (h : q.Books k) (hfds : q'.fds = q.fds) (hmaps : q'.maps = q.maps)
    (hhasFd : ∀ i, q'.hasFd i = q.hasFd i) (hhasMap : ∀ v, q'.hasMap v = q.hasMap v) :
    q'.Books k where
  fds := h.fds.congr (by simp [hfds]) hhasFd
  maps := h.maps.congr (by simp [hmaps]) hhasMap
  made := by rw [hfds]; exact h.made
  fits := by rw [hmaps]; exact h.fits

theorem Proc.Books.grow (h : q.Books k) (hmade : k.made ≤ k'.made)
    (hsizes : ∀ seg < k.made, k.sizes seg ≤ k'.sizes seg) : q.Books k' where
  fds := h.fds
  maps := h.maps
  made hfd := ⟨(h.made hfd).1, lt_of_lt_of_le (h.made hfd).2 hmade⟩
  fits hmap :=
    have hold := h.fits hmap
    ⟨hold.1, lt_of_lt_of_le hold.2.1 hmade, UInt64.le_trans hold.2.2 (hsizes _ hold.2.1)⟩

/-- The next system call of a process that keeps what it has. -/
theorem Proc.Books.setPc (h : q.Books k) (pc : Pc) (hpc : pc.fd? = q.pc.fd?) :
    { q with pc }.Books k :=
  h.quiet rfl rfl (fun i => by cases i <;> simp [hpc]) fun _ => rfl

/-- An object that has neither a descriptor nor a mapping comes, changes or goes. -/
theorem Proc.Books.setBare (h : q.Books k) {x? : Option PosixSharedMemory} (pc : Pc)
    (hpc : pc.fd? = q.pc.fd?) (hfd : (q.vars v).bind PosixSharedMemory.fd? = none)
    (hmap : (q.vars v).bind PosixSharedMemory.mapping? = none)
    (hfd' : x?.bind PosixSharedMemory.fd? = none)
    (hmap' : x?.bind PosixSharedMemory.mapping? = none) :
    { q with vars := Function.update q.vars v x?, pc }.Books k := by
  refine h.quiet rfl rfl (fun i => ?_) fun w => ?_
  · cases i with
    | none => exact hpc
    | some w =>
      by_cases hw : w = v
      · simp [hw, hfd, hfd']
      · simp [Function.update_of_ne hw]
  · by_cases hw : w = v
    · simp [Proc.hasMap, hw, hmap, hmap']
    · simp [Proc.hasMap, Function.update_of_ne hw]

/-- A call returns an object that has nothing. -/
theorem Proc.Books.result (h : q.Books k) (hv : q.vars v = none) (hpc : q.pc.fd? = none)
    (hx : x.fd < 0) (haddr : x.addr = 0) : (q.result v x).Books k :=
  h.setBare .idle hpc.symm (by simp [hv]) (by simp [hv])
    (by simp [PosixSharedMemory.fd?, hx]) (by simp [PosixSharedMemory.mapping?, haddr])

/-- A move hands on what the source has, to an object that has nothing. -/
theorem Proc.Books.move (h : q.Books k) {src : Var} (hpc : q.pc.fd? = none) (hne : v ≠ src)
    (hfd : (q.vars v).bind PosixSharedMemory.fd? = none)
    (hmap : (q.vars v).bind PosixSharedMemory.mapping? = none) (name error : String) :
    (q.move v src name error).Books k := by
  unfold Proc.move
  cases hsrc : q.vars src with
  | none => exact h.setPc .idle hpc.symm
  | some x =>
    refine ⟨h.fds.transfer (h := some src) (i := some v) ?_ ?_ ?_ ?_,
      h.maps.transfer (h := src) (i := v) ?_ ?_ ?_ ?_, h.made, h.fits⟩
    · simp [hfd]
    · simp [hsrc]
    · simp [Function.update_of_ne hne.symm, PosixSharedMemory.fd?, PosixSharedMemory.movedFrom]
    · rintro (_ | i) hi hi'
      · exact hpc.symm
      · simp only [ne_eq, Option.some.injEq] at hi hi'
        simp [Function.update_of_ne hi, Function.update_of_ne hi']
    · simp [Proc.hasMap, hmap]
    · simp [Proc.hasMap, hsrc]
    · simp [Proc.hasMap, Function.update_of_ne hne.symm, PosixSharedMemory.mapping?,
        PosixSharedMemory.movedFrom]
    · intro i hi hi'
      simp [Proc.hasMap, Function.update_of_ne hi, Function.update_of_ne hi']

/-- `close` has returned, with nothing left in the object. -/
theorem Proc.Books.finish (h : q.Books k) (hpc : q.pc.fd? = none)
    (hfd : (q.vars v).bind PosixSharedMemory.fd? = none)
    (hmap : (q.vars v).bind PosixSharedMemory.mapping? = none) (hafter : after.Ok q v) :
    (q.finish v after).Books k := by
  cases after with
  | done => exact h.setPc .idle hpc.symm
  | destroy => exact h.setBare .idle hpc.symm hfd hmap rfl rfl
  | assign src name error => exact h.move hpc hafter.2 hfd hmap name error

/-- The running call has a new descriptor. -/
theorem Proc.Books.open (h : q.Books k) {fd : Int} {seg : Seg} (pc : Pc) (hpc : q.pc.fd? = none)
    (hfree : q.fds fd = none) (hnonneg : 0 ≤ fd) (hseg : seg < k.made) (hpc' : pc.fd? = some fd) :
    { q with fds := Function.update q.fds fd (some seg), pc }.Books k := by
  refine ⟨h.fds.acquire (h := none) (r := fd) ?_ hpc ?_ hpc' ?_, h.maps, ?_, h.fits⟩
  · simp [hfree]
  · intro fd'
    by_cases heq : fd' = fd
    · simp [heq]
    · simp [heq]
  · rintro (_ | w) hw
    · exact absurd rfl hw
    · rfl
  · intro fd' seg' hfd'
    by_cases heq : fd' = fd
    · subst heq
      obtain rfl : seg = seg' := by simpa using hfd'
      exact ⟨hnonneg, hseg⟩
    · exact h.made (by simpa [Function.update_of_ne heq] using hfd')

/-- The table of descriptors once one is closed. -/
theorem open_close {fd fd' : Int} : (close q fd).fds fd' ≠ none ↔ q.fds fd' ≠ none ∧ fd' ≠ fd := by
  by_cases heq : fd' = fd
  · simp [close, heq]
  · simp [close, heq]

theorem made_close (h : q.Books k) {fd fd' : Int} {seg : Seg}
    (hfd : (close q fd).fds fd' = some seg) : 0 ≤ fd' ∧ seg < k.made := by
  by_cases heq : fd' = fd
  · simp [close, heq] at hfd
  · exact h.made (by simpa [close, Function.update_of_ne heq] using hfd)

/-- The running call closes its descriptor. -/
theorem Proc.Books.closeCall (h : q.Books k) {fd : Int} (pc : Pc) (hpc : q.pc.fd? = some fd)
    (hpc' : pc.fd? = none) : { close q fd with pc }.Books k := by
  refine ⟨h.fds.release (h := none) (r := fd) hpc (fun _ => open_close) hpc' ?_, h.maps,
    made_close h, h.fits⟩
  rintro (_ | w) hw
  · exact absurd rfl hw
  · rfl

/-- An object closes its descriptor. -/
theorem Proc.Books.closeVar (h : q.Books k) (pc : Pc) (hv : q.vars v = some x) (hx : x.fd ≥ 0)
    (hpc : pc.fd? = q.pc.fd?) :
    { close q x.fd with vars := Function.update q.vars v (some { x with fd := -1 }), pc }.Books k := by
  refine ⟨h.fds.release (h := some v) (r := x.fd) ?_ (fun _ => open_close) ?_ ?_,
    h.maps.congr (fun _ => Iff.rfl) fun w => ?_, made_close h, h.fits⟩
  · simp [hv, PosixSharedMemory.fd?, hx]
  · simp [PosixSharedMemory.fd?]
  · rintro (_ | w) hw
    · exact hpc
    · have hw : w ≠ v := by simpa using hw
      simp [Function.update_of_ne hw]
  · by_cases hw : w = v
    · simp [Proc.hasMap, hw, hv, PosixSharedMemory.mapping?]
    · simp [Proc.hasMap, Function.update_of_ne hw]

/-- An object gives up its mapping. -/
theorem Proc.Books.munmapVar (h : q.Books k) (pc : Pc) (hv : q.vars v = some x)
    (hx : x.addr ≠ 0) (hpc : pc.fd? = q.pc.fd?) :
    { munmap q x.addr with
      vars := Function.update q.vars v (some { x with addr := 0 }), pc }.Books k := by
  have hold : q.hasMap v = some (x.addr, x.size) := by
    simp [Proc.hasMap, hv, PosixSharedMemory.mapping?, hx]
  refine ⟨h.fds.congr (fun _ => Iff.rfl) fun i => ?_,
    h.maps.release (h := v) hold ?_ ?_ ?_, h.made, ?_⟩
  · cases i with
    | none => exact hpc
    | some w =>
      by_cases hw : w = v
      · simp [hw, hv, PosixSharedMemory.fd?]
      · simp [Function.update_of_ne hw]
  · rintro ⟨addr, size⟩
    by_cases heq : addr = x.addr
    · obtain ⟨seg, hseg⟩ := h.maps.taken_of_has hold
      subst heq
      simp only [munmap, Function.update_self, reduceCtorEq, exists_false, false_iff, not_and,
        not_not, forall_exists_index]
      intro seg' hseg'
      rw [hseg] at hseg'
      simpa using (congrArg (fun r => r.map Prod.fst) hseg').symm
    · simp [munmap, heq]
  · simp [Proc.hasMap, PosixSharedMemory.mapping?]
  · intro w hw
    simp [Proc.hasMap, Function.update_of_ne hw]
  · intro addr size seg hmap
    by_cases heq : addr = x.addr
    · simp [munmap, heq] at hmap
    · exact h.fits (by simpa [munmap, Function.update_of_ne heq] using hmap)

/-- The result of a call takes the new mapping and the descriptor of the call. -/
theorem Proc.Books.mapResult (h : q.Books k) {fd : Int} {seg : Seg} {addr bytes : UInt64}
    (hv : q.vars v = none) (hpc : q.pc.fd? = some fd) (hfd : q.fds fd = some seg)
    (hfree : q.maps addr = none) (haddr : addr ≠ 0) (hbytes : bytes ≤ k.sizes seg)
    (owner : Bool) (name : String) :
    ({ q with maps := Function.update q.maps addr (some (bytes, seg)) }.result v
      { addr, size := bytes, fd, owner, name }).Books k := by
  have hseg := h.made hfd
  refine ⟨h.fds.transfer (h := none) (i := some v) ?_ ?_ rfl ?_,
    h.maps.acquire (h := v) (r := (addr, bytes)) ?_ ?_ ?_ ?_ ?_, h.made, ?_⟩
  · simp [hv]
  · simp [Proc.result, hpc, PosixSharedMemory.fd?, hseg.1]
  · rintro (_ | w) hi hi'
    · exact absurd rfl hi
    · have hw : w ≠ v := by simpa using hi'
      simp [Proc.result, Function.update_of_ne hw]
  · simp [hfree]
  · simp [Proc.hasMap, hv]
  · rintro ⟨addr', size⟩
    by_cases heq : addr' = addr
    · subst heq
      simp [Proc.result, hfree, eq_comm]
    · simp [Proc.result, heq]
  · simp [Proc.hasMap, Proc.result, PosixSharedMemory.mapping?, haddr]
  · intro w hw
    simp [Proc.hasMap, Proc.result, Function.update_of_ne hw]
  · intro addr' size seg' hmap
    by_cases heq : addr' = addr
    · subst heq
      obtain ⟨rfl, rfl⟩ : bytes = size ∧ seg = seg' := by simpa [Proc.result] using hmap
      exact ⟨haddr, hseg.2, hbytes⟩
    · exact h.fits (by simpa [Proc.result, Function.update_of_ne heq] using hmap)

end Books

/-! ## The system calls -/

section Kernel

variable {k : Kernel} {q : Proc} {fd : Int} {seg : Seg}

theorem shmOpenNew_cases (k : Kernel) (q : Proc) (name : String) (reply : Reply) :
    shmOpenNew k q name reply = ((k, q), -1) ∨
      ∃ n : Nat, name ≠ "" ∧ k.names name = none ∧ q.fds n = none ∧
        shmOpenNew k q name reply =
          (({ names := Function.update k.names name (some k.made)
              sizes := Function.update k.sizes k.made 0, made := k.made + 1 },
            { q with fds := Function.update q.fds n (some k.made) }), (n : Int)) := by
  cases reply with
  | refused errno => exact .inl rfl
  | granted n =>
    by_cases hbad : name = "" ∨ k.names name ≠ none ∨ q.fds n ≠ none
    · exact .inl (by simp only [shmOpenNew, if_pos hbad])
    · have hgood := hbad
      push Not at hgood
      exact .inr ⟨n, hgood.1, hgood.2.1, hgood.2.2, by simp only [shmOpenNew, if_neg hbad]⟩

theorem shmOpen_cases (k : Kernel) (q : Proc) (name : String) (reply : Reply) :
    shmOpen k q name reply = (q, -1) ∨
      ∃ (n : Nat) (seg : Seg), k.names name = some seg ∧ q.fds n = none ∧
        shmOpen k q name reply =
          ({ q with fds := Function.update q.fds n (some seg) }, (n : Int)) := by
  cases reply with
  | refused errno => exact .inl rfl
  | granted n =>
    cases hname : k.names name with
    | none => exact .inl (by simp only [shmOpen, hname])
    | some seg =>
      by_cases hopen : q.fds n ≠ none
      · exact .inl (by simp only [shmOpen, hname, if_pos hopen])
      · exact .inr ⟨n, seg, rfl, not_not.mp hopen, by simp only [shmOpen, hname, if_neg hopen]⟩

theorem ftruncate_cases (hfd : q.fds fd = some seg) (bytes : UInt64) (reply : Reply) :
    ftruncate k q fd bytes reply = (k, -1) ∨
      ftruncate k q fd bytes reply =
        ({ k with sizes := Function.update k.sizes seg bytes }, 0) := by
  cases reply with
  | refused errno => exact .inl rfl
  | granted n =>
    by_cases hneg : bytes.toInt64 < 0
    · exact .inl (by simp only [ftruncate, hfd, if_pos hneg])
    · exact .inr (by simp only [ftruncate, hfd, if_neg hneg])

theorem mmap_cases (hfd : q.fds fd = some seg) (bytes : UInt64) (reply : Reply) :
    mmap q fd bytes reply = (q, MAP_FAILED) ∨
      ∃ addr, addr ≠ 0 ∧ addr ≠ MAP_FAILED ∧ q.maps addr = none ∧
        mmap q fd bytes reply =
          ({ q with maps := Function.update q.maps addr (some (bytes, seg)) }, addr) := by
  cases reply with
  | refused errno => exact .inl rfl
  | granted n =>
    by_cases hbad : UInt64.ofNat n = 0 ∨ UInt64.ofNat n = MAP_FAILED ∨
        q.maps (UInt64.ofNat n) ≠ none
    · exact .inl (by simp only [mmap, hfd, if_pos hbad])
    · have hgood := hbad
      push Not at hgood
      exact .inr ⟨_, hgood.1, hgood.2.1, hgood.2.2, by simp only [mmap, hfd, if_neg hbad]⟩

end Kernel

/-! ## One step of a process -/

/-- A step of a process leaves its own books in order, and of the segments only the one
it is sizing has changed. -/
structure Turned (k : Kernel) (q : Proc) (r : Kernel × Proc) : Prop where
  ok : r.2.Ok r.1
  named : r.1.Named
  made : k.made ≤ r.1.made
  sizes : ∀ seg < k.made, r.1.sizes seg ≠ k.sizes seg → q.sizing = some seg ∧ k.sizes seg = 0
  sizing : ∀ seg, r.2.sizing = some seg → q.sizing = some seg ∨ k.made ≤ seg

theorem Kernel.Named.unlink {k : Kernel} (h : k.Named) (name : String) :
    (shmUnlink k name).Named := by
  intro name' seg hseg
  by_cases heq : name' = name
  · simp [shmUnlink, heq] at hseg
  · exact h name' seg (by simpa [shmUnlink, Function.update_of_ne heq] using hseg)

theorem turned_same {k : Kernel} {q q' : Proc} (hnamed : k.Named) (hbooks : q'.Books k)
    (hpc : q'.pc.Ok k q') (hsizing : q'.sizing = none) : Turned k q (k, q') where
  ok := ⟨hbooks, hpc⟩
  named := hnamed
  made := Nat.le_refl _
  sizes _ _ hne := absurd rfl hne
  sizing seg hseg := by
    rw [hsizing] at hseg
    cases hseg

/-- A call that has returned. -/
theorem turned_idle {k : Kernel} {q q' : Proc} (hnamed : k.Named) (hbooks : q'.Books k)
    (hidle : q'.pc = .idle) : Turned k q (k, q') :=
  turned_same hnamed hbooks (by rw [hidle]; trivial) (by rw [Proc.sizing, hidle])

/-- The name is removed, on top of what else the step does. -/
theorem Turned.unlink {k : Kernel} {q q' : Proc} (h : Turned k q (k, q')) (hidle : q'.pc = .idle)
    (name : String) : Turned k q (shmUnlink k name, q') where
  ok := ⟨h.ok.books.grow (Nat.le_refl _) fun _ _ => UInt64.le_refl _, by rw [hidle]; trivial⟩
  named := h.named.unlink name
  made := Nat.le_refl _
  sizes := h.sizes
  sizing := h.sizing

section Turn

variable {strerror : Nat → String} {k : Kernel} {q q' : Proc} {v : Var} {x : PosixSharedMemory}
  {name : String} {fd : Int} {bytes : UInt64} {after : After}

theorem move_pc (src : Var) (name error : String) : (q.move v src name error).pc = .idle := by
  unfold Proc.move
  cases q.vars src <;> rfl

theorem finish_pc : (q.finish v after).pc = .idle := by
  cases after with
  | done => rfl
  | destroy => rfl
  | assign src name error => exact move_pc src name error

/-- Nothing happens to the object that `v` is to be made from. -/
theorem After.Ok.keep (h : after.Ok q v) (hvars : ∀ w, w ≠ v → q'.vars w = q.vars w) :
    after.Ok q' v := by
  cases after with
  | done => trivial
  | destroy => trivial
  | assign src name error =>
    have hsrc : q'.vars src ≠ none := by
      rw [hvars src (Ne.symm h.2)]
      exact h.1
    exact ⟨hsrc, h.2⟩

theorem turned_createOpen (hnamed : k.Named) (h : q.Books k)
    (hq : q.pc = .createOpen v name bytes) (hv : q.vars v = none) (reply : Reply) :
    Turned k q (q.turn strerror k reply).1 := by
  have hfd : q.pc.fd? = none := by rw [hq]; rfl
  rcases shmOpenNew_cases k q name reply with heq | ⟨n, -, -, hfree, heq⟩
  · simp only [Proc.turn, hq, heq]
    exact turned_idle hnamed (h.result hv hfd (Int.negSucc_lt_zero 0) rfl) rfl
  · have hnonneg : ¬ (n : Int) < 0 := by omega
    simp only [Proc.turn, hq, heq, if_neg hnonneg]
    have hsizes : ∀ seg < k.made, Function.update k.sizes k.made 0 seg = k.sizes seg :=
      fun seg hseg => Function.update_of_ne (Nat.ne_of_lt hseg) _ _
    have hgrow : q.Books ⟨Function.update k.names name (some k.made),
        Function.update k.sizes k.made 0, k.made + 1⟩ :=
      h.grow (Nat.le_succ _) fun seg hseg => hsizes seg hseg ▸ UInt64.le_refl _
    refine ⟨⟨hgrow.open (.createTruncate v name bytes n) hfd hfree (by omega) (Nat.lt_succ_self _)
      rfl, hv, k.made, ?_, ?_⟩, fun name' seg hseg => ?_, Nat.le_succ _,
      fun seg hseg hne => absurd (hsizes seg hseg) hne, fun seg hseg => .inr ?_⟩
    · simp
    · simp
    · by_cases heq : name' = name
      · obtain rfl : k.made = seg := by simpa [heq] using hseg
        exact Nat.lt_succ_self _
      · have hold : k.names name' = some seg := by simpa [Function.update_of_ne heq] using hseg
        exact Nat.lt_succ_of_lt (hnamed name' seg hold)
    · obtain rfl : k.made = seg := by simpa [Proc.sizing] using hseg
      exact Nat.le_refl _

theorem turned_createTruncate (hnamed : k.Named) (h : q.Books k)
    (hq : q.pc = .createTruncate v name bytes fd)
    (hpc : q.vars v = none ∧ ∃ seg, q.fds fd = some seg ∧ k.sizes seg = 0) (reply : Reply) :
    Turned k q (q.turn strerror k reply).1 := by
  obtain ⟨hv, seg, hseg, hzero⟩ := hpc
  have hfd : q.pc.fd? = some fd := by rw [hq]; rfl
  rcases ftruncate_cases (k := k) hseg bytes reply with heq | heq
  · have hturn : (q.turn strerror k reply).1 =
        (k, { q with pc := .createClose v name (errnoText strerror "ftruncate" reply) fd }) := by
      simp [Proc.turn, hq, heq]
    rw [hturn]
    exact turned_same hnamed (h.setPc (.createClose v name _ fd) hfd.symm) hv rfl
  · have hturn : (q.turn strerror k reply).1 = ({ k with
        sizes := Function.update k.sizes seg bytes }, { q with pc := .createMap v name bytes fd }) := by
      simp [Proc.turn, hq, heq]
    rw [hturn]
    have hother : ∀ seg', seg' ≠ seg → Function.update k.sizes seg bytes seg' = k.sizes seg' :=
      fun seg' hne => Function.update_of_ne hne _ _
    have hgrow : q.Books { k with sizes := Function.update k.sizes seg bytes } :=
      h.grow (Nat.le_refl _) fun seg' _ => by
        by_cases hs : seg' = seg
        · rw [hs, hzero]
          exact UInt64.zero_le
        · exact hother seg' hs ▸ UInt64.le_refl _
    refine ⟨⟨hgrow.setPc (.createMap v name bytes fd) hfd.symm, hv, seg, hseg, ?_⟩, hnamed,
      Nat.le_refl _, fun seg' _ hne => ?_, fun seg' hseg' => ?_⟩
    · simp
    · obtain rfl : seg' = seg := by
        by_contra hs
        exact hne (hother seg' hs)
      exact ⟨by rw [Proc.sizing, hq]; exact hseg, hzero⟩
    · cases hseg'

/-- `create` and `open_existing` map alike, but for what they do when they cannot. -/
theorem turned_map (hnamed : k.Named) (h : q.Books k) (failed : Pc) (reply : Reply) (owner : Bool)
    (name : String) (hfd : q.pc.fd? = some fd)
    (hpc : q.vars v = none ∧ ∃ seg, q.fds fd = some seg ∧ bytes ≤ k.sizes seg)
    (hfailed : failed.fd? = some fd) (hok : failed.Ok k { q with pc := failed })
    (hsizing : { q with pc := failed }.sizing = none) :
    Turned k q (if (mmap q fd bytes reply).2 = MAP_FAILED then
        (k, { (mmap q fd bytes reply).1 with pc := failed })
      else
        (k, (mmap q fd bytes reply).1.result v
          { addr := (mmap q fd bytes reply).2, size := bytes, fd, owner, name })) := by
  obtain ⟨hv, seg, hseg, hbytes⟩ := hpc
  rcases mmap_cases hseg bytes reply with heq | ⟨addr, haddr, hmapped, hfree, heq⟩
  · rw [heq, if_pos rfl]
    exact turned_same hnamed (h.setPc failed (hfailed.trans hfd.symm)) hok hsizing
  · rw [heq, if_neg hmapped]
    exact turned_idle hnamed (h.mapResult hv hfd hseg hfree haddr hbytes owner name) rfl

/-- The last stage of `close`: the object has neither a mapping nor a descriptor. -/
theorem turned_closeName (hnamed : k.Named) (h : q.Books k) (hq : q.pc = .closeName v after)
    (hv : q.vars v = some x) (haddr : x.addr = 0) (hclosed : x.fd < 0) (hafter : after.Ok q v)
    (reply : Reply) : Turned k q (q.turn strerror k reply).1 := by
  have hfd : q.pc.fd? = none := by rw [hq]; rfl
  have hbare : ∀ y : PosixSharedMemory, y.addr = 0 → y.fd < 0 →
      y.fd? = none ∧ y.mapping? = none := fun y haddr hclosed =>
    ⟨by simp [PosixSharedMemory.fd?, hclosed], by simp [PosixSharedMemory.mapping?, haddr]⟩
  obtain ⟨hfd₀, hmap₀⟩ := hbare x haddr hclosed
  have hend : ∀ y : PosixSharedMemory, y.addr = 0 → y.fd < 0 →
      Turned k q (k, { q with vars := Function.update q.vars v (some y) }.finish v after) := by
    intro y haddr hclosed
    obtain ⟨hfd₁, hmap₁⟩ := hbare y haddr hclosed
    have hset : { q with vars := Function.update q.vars v (some y) }.Books k :=
      h.setBare q.pc rfl (by simp [hv, hfd₀]) (by simp [hv, hmap₀]) hfd₁ hmap₁
    refine turned_idle hnamed (hset.finish hfd ?_ ?_ (hafter.keep fun w hw => ?_)) finish_pc
    · simp [hfd₁]
    · simp [hmap₁]
    · exact Function.update_of_ne hw _ _
  simp only [Proc.turn, hq, hv]
  by_cases howner : x.owner ∧ x.name ≠ ""
  · simp only [if_pos howner]
    exact (hend { x with owner := false, size := 0 } haddr hclosed).unlink finish_pc x.name
  · simp only [if_neg howner]
    exact hend { x with size := 0 } haddr hclosed

theorem Proc.Ok.turn (hnamed : k.Named) (h : q.Ok k) (reply : Reply) :
    Turned k q (q.turn strerror k reply).1 := by
  obtain ⟨hbooks, hpc⟩ := h
  cases hq : q.pc with
  | idle =>
    simp only [Proc.turn, hq]
    exact turned_idle hnamed hbooks hq
  | createOpen v name bytes =>
    rw [hq] at hpc
    exact turned_createOpen hnamed hbooks hq hpc reply
  | createTruncate v name bytes fd =>
    rw [hq] at hpc
    exact turned_createTruncate hnamed hbooks hq hpc reply
  | createMap v name bytes fd =>
    rw [hq] at hpc
    have hfd : q.pc.fd? = some fd := by rw [hq]; rfl
    simp only [Proc.turn, hq, apply_ite Prod.fst]
    exact turned_map hnamed hbooks (.createClose v name _ fd) reply _ name hfd hpc rfl hpc.1 rfl
  | createClose v name error fd =>
    rw [hq] at hpc
    have hfd : q.pc.fd? = some fd := by rw [hq]; rfl
    simp only [Proc.turn, hq]
    exact turned_same hnamed (hbooks.closeCall (.createUnlink v name error) hfd rfl) hpc rfl
  | createUnlink v name error =>
    rw [hq] at hpc
    have hfd : q.pc.fd? = none := by rw [hq]; rfl
    simp only [Proc.turn, hq]
    exact (turned_idle hnamed (hbooks.result hpc hfd (Int.negSucc_lt_zero 0) rfl) rfl).unlink rfl name
  | existingOpen v name bytes =>
    rw [hq] at hpc
    have hfd : q.pc.fd? = none := by rw [hq]; rfl
    rcases shmOpen_cases k q name reply with heq | ⟨n, seg, hname, hfree, heq⟩
    · simp only [Proc.turn, hq, heq]
      exact turned_idle hnamed (hbooks.result hpc hfd (Int.negSucc_lt_zero 0) rfl) rfl
    · have hnonneg : ¬ (n : Int) < 0 := by omega
      simp only [Proc.turn, hq, heq, if_neg hnonneg]
      exact turned_same hnamed (hbooks.open (.existingStat v name bytes n) hfd hfree (by omega)
        (hnamed name seg hname) rfl) hpc rfl
  | existingStat v name bytes fd =>
    rw [hq] at hpc
    have hfd : q.pc.fd? = some fd := by rw [hq]; rfl
    have hclose : ∀ error, Turned k q (k, { q with pc := .existingClose v name error fd }) :=
      fun error => turned_same hnamed (hbooks.setPc (.existingClose v name error fd) hfd.symm) hpc rfl
    simp only [Proc.turn, hq]
    cases hstat : fstat k q fd reply with
    | none => exact hclose _
    | some size =>
      by_cases hsmall : size < bytes
      · simp only [if_pos hsmall]
        exact hclose _
      · simp only [if_neg hsmall]
        refine turned_same hnamed (hbooks.setPc (.existingMap v name bytes fd) hfd.symm)
          ⟨hpc, ?_⟩ rfl
        cases reply with
        | refused errno => cases hstat
        | granted n =>
          obtain ⟨seg, hseg, rfl⟩ := Option.map_eq_some_iff.mp hstat
          exact ⟨seg, hseg, UInt64.not_lt.mp hsmall⟩
  | existingMap v name bytes fd =>
    rw [hq] at hpc
    have hfd : q.pc.fd? = some fd := by rw [hq]; rfl
    simp only [Proc.turn, hq, apply_ite Prod.fst]
    exact turned_map hnamed hbooks (.existingClose v name _ fd) reply _ name hfd hpc rfl hpc.1 rfl
  | existingClose v name error fd =>
    rw [hq] at hpc
    have hfd : q.pc.fd? = some fd := by rw [hq]; rfl
    simp only [Proc.turn, hq]
    exact turned_idle hnamed ((hbooks.closeCall .idle hfd rfl).result hpc rfl
      (Int.negSucc_lt_zero 0) rfl) rfl
  | closeMap v after =>
    rw [hq] at hpc
    obtain ⟨hv, hafter⟩ := hpc
    obtain ⟨x, hx⟩ := Option.ne_none_iff_exists'.mp hv
    have hfd : q.pc.fd? = none := by rw [hq]; rfl
    simp only [Proc.turn, hq, hx]
    by_cases haddr : x.addr ≠ 0
    · simp only [if_pos haddr]
      exact turned_same hnamed (hbooks.munmapVar (.closeFd v after) hx haddr hfd.symm)
        ⟨⟨_, Function.update_self .., rfl⟩, hafter.keep fun w hw => Function.update_of_ne hw _ _⟩ rfl
    · simp only [if_neg haddr]
      exact turned_same hnamed (hbooks.setPc (.closeFd v after) hfd.symm)
        ⟨⟨x, hx, not_not.mp haddr⟩, hafter⟩ rfl
  | closeFd v after =>
    rw [hq] at hpc
    obtain ⟨⟨x, hx, haddr⟩, hafter⟩ := hpc
    have hfd : q.pc.fd? = none := by rw [hq]; rfl
    simp only [Proc.turn, hq, hx]
    by_cases hopen : x.fd ≥ 0
    · simp only [if_pos hopen]
      exact turned_same hnamed (hbooks.closeVar (.closeName v after) hx hopen hfd.symm)
        ⟨⟨_, Function.update_self .., haddr, Int.negSucc_lt_zero 0⟩,
          hafter.keep fun w hw => Function.update_of_ne hw _ _⟩ rfl
    · simp only [if_neg hopen]
      exact turned_same hnamed (hbooks.setPc (.closeName v after) hfd.symm)
        ⟨⟨x, hx, haddr, not_le.mp hopen⟩, hafter⟩ rfl
  | closeName v after =>
    rw [hq] at hpc
    obtain ⟨⟨x, hx, haddr, hclosed⟩, hafter⟩ := hpc
    exact turned_closeName hnamed hbooks hq hx haddr hclosed hafter reply

theorem Proc.Ok.call (hnamed : k.Named) (h : q.Ok k) (op : Op) : Turned k q (k, q.call op) := by
  have hstay : Turned k q (k, q) :=
    ⟨h, hnamed, Nat.le_refl _, fun _ _ hne => absurd rfl hne, fun _ => .inl⟩
  unfold Proc.call
  by_cases hidle : q.pc = .idle
  swap
  · rw [if_pos hidle]
    exact hstay
  obtain ⟨hbooks, -⟩ := h
  have hfd : q.pc.fd? = none := by rw [hidle]; rfl
  rw [if_neg (not_not.mpr hidle)]
  have hreturn : ∀ v x, q.vars v = none → x.fd < 0 → x.addr = 0 → Turned k q (k, q.result v x) :=
    fun v x hv hx haddr => turned_idle hnamed (hbooks.result hv hfd hx haddr) rfl
  cases op with
  | construct v =>
    by_cases hv : q.vars v = none
    · simp only [if_pos hv]
      exact hreturn v _ hv (Int.negSucc_lt_zero 0) rfl
    · simpa only [if_neg hv] using hstay
  | create v name bytes =>
    by_cases hv : q.vars v = none
    · by_cases hzero : bytes = 0
      · simp only [hv, ne_eq, not_true, if_false, if_pos hzero]
        exact hreturn v _ hv (Int.negSucc_lt_zero 0) rfl
      · simp only [hv, ne_eq, not_true, if_false, if_neg hzero]
        exact turned_same hnamed (hbooks.setPc (.createOpen v name bytes) hfd.symm) hv rfl
    · simpa only [ne_eq, hv, not_false_eq_true, if_true] using hstay
  | openExisting v name bytes =>
    by_cases hv : q.vars v = none
    · by_cases hzero : bytes = 0
      · simp only [hv, ne_eq, not_true, if_false, if_pos hzero]
        exact hreturn v _ hv (Int.negSucc_lt_zero 0) rfl
      · simp only [hv, ne_eq, not_true, if_false, if_neg hzero]
        exact turned_same hnamed (hbooks.setPc (.existingOpen v name bytes) hfd.symm) hv rfl
    · simpa only [ne_eq, hv, not_false_eq_true, if_true] using hstay
  | moveConstruct v src name error =>
    by_cases hv : q.vars v = none ∧ q.vars src ≠ none
    · simp only [if_pos hv]
      have hne : v ≠ src := by
        rintro rfl
        exact hv.2 hv.1
      refine turned_idle hnamed (hbooks.move hfd hne ?_ ?_ name error) (move_pc src name error)
      · rw [hv.1]; rfl
      · rw [hv.1]; rfl
    · simpa only [if_neg hv] using hstay
  | moveAssign v src name error =>
    by_cases hv : q.vars v ≠ none ∧ q.vars src ≠ none ∧ v ≠ src
    · simp only [if_pos hv]
      exact turned_same hnamed (hbooks.setPc (.closeMap v (.assign src name error)) hfd.symm) hv rfl
    · simpa only [if_neg hv] using hstay
  | close v =>
    by_cases hv : q.vars v = none
    · simpa only [if_pos hv] using hstay
    · simp only [if_neg hv]
      exact turned_same hnamed (hbooks.setPc (.closeMap v .done) hfd.symm) ⟨hv, trivial⟩ rfl
  | destroy v =>
    by_cases hv : q.vars v = none
    · simpa only [if_pos hv] using hstay
    · simp only [if_neg hv]
      exact turned_same hnamed (hbooks.setPc (.closeMap v .destroy) hfd.symm) ⟨hv, trivial⟩ rfl

/-- What a system call names is the caller's. -/
def Syscall.Legit (q : Proc) : Syscall → Prop
  | .ftruncate fd | .fstat fd | .mmap fd | .close fd => q.fds fd ≠ none
  | .munmap addr size => ∃ seg, q.maps addr = some (size, seg)
  | .shmUnlink name => ∃ i, q.hasName i = some name

theorem Proc.Ok.legit (h : q.Ok k) {reply : Reply} {c : Syscall}
    (hc : (q.turn strerror k reply).2 = some c) : c.Legit q := by
  obtain ⟨hbooks, hpc⟩ := h
  have hheld : ∀ {fd}, q.pc.fd? = some fd → q.fds fd ≠ none := fun hfd =>
    hbooks.fds.taken_of_has (h := none) hfd
  cases hq : q.pc with
  | idle | createOpen v name bytes | existingOpen v name bytes =>
    simp only [Proc.turn, hq] at hc
    first | cases hc | (split at hc <;> cases hc)
  | createTruncate v name bytes fd | createMap v name bytes fd | existingMap v name bytes fd =>
    simp only [Proc.turn, hq] at hc
    split at hc <;>
    · obtain rfl := Option.some.inj hc
      exact hheld (by rw [hq]; rfl)
  | createClose v name error fd | existingClose v name error fd =>
    simp only [Proc.turn, hq] at hc
    obtain rfl := Option.some.inj hc
    exact hheld (by rw [hq]; rfl)
  | createUnlink v name error =>
    simp only [Proc.turn, hq] at hc
    obtain rfl := Option.some.inj hc
    exact ⟨none, by rw [hasName_none, hq]; rfl⟩
  | existingStat v name bytes fd =>
    have hfd : q.fds fd ≠ none := hheld (by rw [hq]; rfl)
    simp only [Proc.turn, hq] at hc
    cases hstat : fstat k q fd reply with
    | none =>
      rw [hstat] at hc
      obtain rfl := Option.some.inj hc
      exact hfd
    | some size =>
      rw [hstat] at hc
      dsimp only at hc
      split at hc <;>
      · obtain rfl := Option.some.inj hc
        exact hfd
  | closeMap v after =>
    rw [hq] at hpc
    obtain ⟨x, hx⟩ := Option.ne_none_iff_exists'.mp hpc.1
    simp only [Proc.turn, hq, hx] at hc
    split at hc
    · rename_i haddr
      obtain rfl := Option.some.inj hc
      have hmap : q.hasMap v = some (x.addr, x.size) := by
        simp [Proc.hasMap, hx, PosixSharedMemory.mapping?, haddr]
      exact hbooks.maps.taken_of_has hmap
    · cases hc
  | closeFd v after =>
    rw [hq] at hpc
    obtain ⟨⟨x, hx, -⟩, -⟩ := hpc
    simp only [Proc.turn, hq, hx] at hc
    split at hc
    · rename_i hopen
      obtain rfl := Option.some.inj hc
      refine hbooks.fds.taken_of_has (h := some v) ?_
      simp [hx, PosixSharedMemory.fd?, hopen]
    · cases hc
  | closeName v after =>
    rw [hq] at hpc
    obtain ⟨⟨x, hx, -⟩, -⟩ := hpc
    simp only [Proc.turn, hq, hx] at hc
    split at hc
    · rename_i howner
      obtain rfl := Option.some.inj hc
      exact ⟨some v, by simp [hx, PosixSharedMemory.owned?, howner.1]⟩
    · cases hc

end Turn

/-! ## Every run -/

structure World.Ok (w : World) : Prop where
  named : w.kernel.Named
  procs : ∀ p, (w.procs p).Ok w.kernel
  apart : ∀ {p p' seg}, (w.procs p).sizing = some seg → (w.procs p').sizing = some seg → p = p'

section World

variable {strerror : Nat → String} {w : World} {p : Pid} {r : Kernel × Proc}

theorem sizing_lt (h : w.Ok) {seg : Seg} (hs : (w.procs p).sizing = some seg) :
    seg < w.kernel.made := by
  unfold Proc.sizing at hs
  split at hs
  · exact ((h.procs p).books.made hs).2
  · cases hs

/-- What a process can rely on stays true when another one takes a step: no segment
shrinks, and the one it is sizing is its own. -/
theorem Proc.Ok.other {k : Kernel} {q q₁ : Proc} (h : q.Ok k) (ht : Turned k q₁ r)
    (hapart : ∀ seg, q₁.sizing = some seg → q.sizing ≠ some seg) : q.Ok r.1 := by
  have hsizes : ∀ seg < k.made, k.sizes seg ≤ r.1.sizes seg := by
    intro seg hseg
    by_cases heq : r.1.sizes seg = k.sizes seg
    · exact heq ▸ UInt64.le_refl _
    · rw [(ht.sizes seg hseg heq).2]
      exact UInt64.zero_le
  refine ⟨h.books.grow ht.made hsizes, ?_⟩
  have hpc := h.pc
  cases hq : q.pc with
  | createTruncate v name bytes fd =>
    rw [hq] at hpc
    obtain ⟨hv, seg, hseg, hzero⟩ := hpc
    refine ⟨hv, seg, hseg, ?_⟩
    by_contra hne
    have hchanged : r.1.sizes seg ≠ k.sizes seg := by rwa [hzero]
    refine hapart seg (ht.sizes seg (h.books.made hseg).2 hchanged).1 ?_
    rw [Proc.sizing, hq]
    exact hseg
  | createMap v name bytes fd | existingMap v name bytes fd =>
    rw [hq] at hpc
    obtain ⟨hv, seg, hseg, hbytes⟩ := hpc
    exact ⟨hv, seg, hseg, UInt64.le_trans hbytes (hsizes seg (h.books.made hseg).2)⟩
  | _ =>
    rw [hq] at hpc
    exact hpc

theorem Proc.Ok.unlink {k : Kernel} {q : Proc} (h : q.Ok k) (name : String) :
    q.Ok (shmUnlink k name) := by
  refine ⟨h.books.grow (Nat.le_refl _) fun _ _ => UInt64.le_refl _, ?_⟩
  have hpc := h.pc
  cases hq : q.pc <;>
  · rw [hq] at hpc
    exact hpc

theorem World.Ok.set (h : w.Ok) (ht : Turned w.kernel (w.procs p) r) : (w.set p r).Ok := by
  have hself : (w.set p r).procs p = r.2 := Function.update_self ..
  have hother : ∀ {p'}, p' ≠ p → (w.set p r).procs p' = w.procs p' :=
    fun hne => Function.update_of_ne hne _ _
  -- what `p` sizes now it sized before, or nobody can know it yet
  have happart : ∀ {p' seg}, p' ≠ p → r.2.sizing = some seg → (w.procs p').sizing ≠ some seg := by
    intro p' seg hne hs hs'
    rcases ht.sizing seg hs with hold | hnew
    · exact hne (h.apart hs' hold)
    · exact absurd (sizing_lt h hs') (Nat.not_lt.mpr hnew)
  refine ⟨ht.named, fun p' => ?_, fun {p₁ p₂ seg} hs₁ hs₂ => ?_⟩
  · by_cases hp : p' = p
    · rw [hp, hself]
      exact ht.ok
    · rw [hother hp]
      refine (h.procs p').other ht fun seg hs hs' => hp (h.apart hs' hs)
  · by_cases hp₁ : p₁ = p <;> by_cases hp₂ : p₂ = p
    · rw [hp₁, hp₂]
    · rw [hp₁, hself] at hs₁
      rw [hother hp₂] at hs₂
      exact absurd hs₂ (happart hp₂ hs₁)
    · rw [hp₂, hself] at hs₂
      rw [hother hp₁] at hs₁
      exact absurd hs₁ (happart hp₁ hs₂)
    · rw [hother hp₁] at hs₁
      rw [hother hp₂] at hs₂
      exact h.apart hs₁ hs₂

/-- A process that has just begun, or is dead. -/
theorem books_fresh (k : Kernel) : ({} : Proc).Books k where
  fds :=
    { taken_of_has := fun {i fd} hfd => by cases i <;> cases hfd
      once := fun {i j fd} hfd => by cases i <;> cases hfd
      held := fun hfd => absurd rfl hfd }
  maps :=
    { taken_of_has := fun {v r} hr => by cases hr
      once := fun {v v' r} hr => by cases hr
      held := fun {r} hr => by
        obtain ⟨seg, hseg⟩ := hr
        cases hseg }
  made hfd := by cases hfd
  fits hmap := by cases hmap

theorem World.Ok.step (h : w.Ok) (i : Input) : (w.step strerror i).1.Ok := by
  cases i with
  | call p op => exact h.set ((h.procs p).call h.named op)
  | turn p reply => exact h.set ((h.procs p).turn h.named reply)
  | die p => exact h.set (turned_idle h.named (books_fresh _) rfl)
  | unlink name => exact ⟨h.named.unlink name, fun p => (h.procs p).unlink name, h.apart⟩

end World

/-- No process has done anything yet. -/
def World.start : World := { kernel := { names := fun _ => none, sizes := fun _ => 0, made := 0 } }

theorem start_ok : World.start.Ok where
  named _ _ h := by cases h
  procs _ := ⟨books_fresh _, trivial⟩
  apart h := by cases h

/-- **Nothing is leaked and nothing is given back twice.** Whatever processes call in
whatever order of system calls, whatever the kernel refuses, whoever dies: a process
has open exactly the descriptors, and mapped exactly the lengths, that its objects and
its running call have, each in one place only; no mapping is longer than its segment;
and every descriptor, mapping or name that a system call gives back is one the caller
has. -/
theorem handles_accounted (strerror : Nat → String) (inputs : List Input) :
    let t := exec (World.step strerror) World.start inputs
    (∀ p, let q := t.procs p
      Accounted (fun fd => q.fds fd ≠ none) q.hasFd (fun _ => False) ∧
      Accounted (fun r => ∃ seg, q.maps r.1 = some (r.2, seg)) q.hasMap (fun _ => False) ∧
      ∀ addr size seg, q.maps addr = some (size, seg) → size ≤ t.kernel.sizes seg) ∧
    ∀ e ∈ trace (World.step strerror) World.start inputs, ∀ p reply c,
      e.input = .turn p reply → e.output = some c → c.Legit (e.pre.procs p) := by
  intro t
  have hrun : t.Ok := exec_induction (World.step strerror) (fun _ i h => h.step i) _ start_ok inputs
  refine ⟨fun p => ?_, fun e he p reply c hinput houtput => ?_⟩
  · have hbooks := (hrun.procs p).books
    exact ⟨hbooks.fds, hbooks.maps, fun _ _ _ hmap => (hbooks.fits hmap).2.2⟩
  · obtain ⟨before, after, hsplit⟩ := List.append_of_mem he
    have hpre : e.pre.Ok := by
      refine event_of_history (World.step strerror) (P := fun _ _ => True) (I := fun _ w => w.Ok)
        (Q := fun _ e => e.pre.Ok) (fun _ _ i _ h => h.step i) (fun _ _ _ _ h => h) _ start_ok
        inputs (fun _ _ => trivial) before after e hsplit
    have hevent := event_of_mem_trace _ _ _ e he
    have hout : e.output = (World.step strerror e.pre e.input).2 := congrArg Event.output hevent
    rw [hinput] at hout
    exact (hpre.procs p).legit (hout.symm.trans houtput)

end Lloms.PosixShm
