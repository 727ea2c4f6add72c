import Lloms.Ring.PosixHandles

/-! The name of a segment belongs to the one that created it. As long as nobody calls
the static `unlink` on a name that is in use, every name is that of exactly one creator
or was left behind by one that died, it leads to the creator's segment, and it goes
when the creator closes. Attachers never remove one. -/
namespace Lloms.PosixShm
open Lib

abbrev Names := String → Option Seg

/-- Every name a process owns leads to the segment it has open and mapped. -/
structure Proc.Leads (names : Names) (q : Proc) : Prop where
  fd : ∀ {i name fd}, q.hasName i = some name → q.hasFd i = some fd → names name = q.fds fd
  map : ∀ {v name r}, q.hasName (some v) = some name → q.hasMap v = some r →
    names name = (q.maps r.1).map Prod.snd

/-- The names a process owns exist, and it owns each once. -/
structure Proc.Claims (names : Names) (q : Proc) : Prop where
  present : ∀ {i name}, q.hasName i = some name → names name ≠ none
  apart : ∀ {i j name}, q.hasName i = some name → q.hasName j = some name → i = j

/-- What can happen to the names and their owners in one process. -/
inductive NameStep : Names → (Option Var → Option String) → Names → (Option Var → Option String) →
    Prop where
  | same {names has has'} (hhas : ∀ i, has' i = has i) : NameStep names has names has'
  | moved {names has has'} (i j : Option Var) (hnone : has j = none) (hj : has' j = has i)
      (hi : has' i = none) (hother : ∀ l, l ≠ i → l ≠ j → has' l = has l) :
      NameStep names has names has'
  | made {names has has'} (i : Option Var) (name : String) (seg : Seg) (hname : name ≠ "")
      (hfree : names name = none) (hnone : has i = none) (hi : has' i = some name)
      (hother : ∀ l, l ≠ i → has' l = has l) :
      NameStep names has (Function.update names name (some seg)) has'
  | removed {names has has'} (i : Option Var) (name : String) (hold : has i = some name)
      (hi : has' i = none) (hother : ∀ l, l ≠ i → has' l = has l) :
      NameStep names has (Function.update names name none) has'
  | trans {names has names₁ has₁ names₂ has₂} (h : NameStep names has names₁ has₁)
      (h' : NameStep names₁ has₁ names₂ has₂) : NameStep names has names₂ has₂

/-- One step of a process as the names see it. -/
structure Renamed (k : Kernel) (q : Proc) (r : Kernel × Proc) : Prop where
  step : NameStep k.names q.hasName r.1.names r.2.hasName
  leads : q.Leads k.names → r.2.Leads r.1.names

section Process

variable {strerror : Nat → String} {k : Kernel} {q q' : Proc} {v : Var} {x : PosixSharedMemory}
  {after : After} {fd : Int} {pc : Pc}

theorem Renamed.trans {r r' : Kernel × Proc} (h : Renamed k q r) (h' : Renamed r.1 r.2 r') :
    Renamed k q r' :=
  ⟨h.step.trans h'.step, fun hleads => h'.leads (h.leads hleads)⟩

/-- What a process has stays what it was, and so does what it is. -/
theorem renamed_same (hname : ∀ i, q'.hasName i = q.hasName i) (hfd : ∀ i, q'.hasFd i = q.hasFd i)
    (hmap : ∀ v, q'.hasMap v = q.hasMap v) (hfds : q'.fds = q.fds) (hmaps : q'.maps = q.maps) :
    Renamed k q (k, q') where
  step := .same hname
  leads h := by
    refine ⟨fun {i name fd} hn hf => ?_, fun {v name r} hn hm => ?_⟩
    · rw [hfds]
      exact h.fd ((hname i).symm.trans hn) ((hfd i).symm.trans hf)
    · rw [hmaps]
      exact h.map ((hname _).symm.trans hn) ((hmap v).symm.trans hm)

theorem renamed_pc (hname : pc.owned? = q.pc.owned?) (hfd : pc.fd? = q.pc.fd?) :
    Renamed k q (k, { q with pc }) :=
  renamed_same (fun i => by cases i <;> simp [hname]) (fun i => by cases i <;> simp [hfd])
    (fun _ => rfl) rfl rfl

/-- An object that has nothing comes, changes or goes. -/
theorem renamed_vars {x? : Option PosixSharedMemory} (hpcname : pc.owned? = q.pc.owned?)
    (hpcfd : pc.fd? = q.pc.fd?)
    (hname : x?.bind PosixSharedMemory.owned? = (q.vars v).bind PosixSharedMemory.owned?)
    (hfd : x?.bind PosixSharedMemory.fd? = (q.vars v).bind PosixSharedMemory.fd?)
    (hmap : x?.bind PosixSharedMemory.mapping? = (q.vars v).bind PosixSharedMemory.mapping?) :
    Renamed k q (k, { q with vars := Function.update q.vars v x?, pc }) := by
  refine renamed_same (fun i => ?_) (fun i => ?_) (fun w => ?_) rfl rfl
  · cases i with
    | none => exact hpcname
    | some w =>
      by_cases hw : w = v
      · simp [hw, hname]
      · simp [Function.update_of_ne hw]
  · cases i with
    | none => exact hpcfd
    | some w =>
      by_cases hw : w = v
      · simp [hw, hfd]
      · simp [Function.update_of_ne hw]
  · by_cases hw : w = v
    · simp [Proc.hasMap, hw, hmap]
    · simp [Proc.hasMap, Function.update_of_ne hw]

theorem renamed_result (hv : q.vars v = none) (hpcname : q.pc.owned? = none)
    (hpcfd : q.pc.fd? = none) (hx : x.fd < 0) (haddr : x.addr = 0) (howner : x.owner = false) :
    Renamed k q (k, q.result v x) :=
  renamed_vars hpcname.symm hpcfd.symm (by simp [hv, PosixSharedMemory.owned?, howner])
    (by simp [hv, PosixSharedMemory.fd?, hx]) (by simp [hv, PosixSharedMemory.mapping?, haddr])

/-- A new descriptor, with or without a new name that leads to its segment. -/
theorem leads_open {names names' : Names} {seg : Seg} (hleads : q.Leads names) (hbooks : q.Books k)
    (hfree : q.fds fd = none) (hpcfd : pc.fd? = some fd)
    (hkeep : ∀ v name, q.hasName (some v) = some name → names' name = names name)
    (hpc : ∀ name, pc.owned? = some name → names' name = some seg) :
    { q with fds := Function.update q.fds fd (some seg), pc }.Leads names' := by
  refine ⟨fun {i name fd'} hn hf => ?_, fun {v name r} hn hm => ?_⟩
  · cases i with
    | none =>
      obtain rfl : fd = fd' := Option.some.inj (hpcfd.symm.trans hf)
      simpa using hpc name hn
    | some v =>
      have hne : fd' ≠ fd := by
        rintro rfl
        exact hbooks.fds.taken_of_has (h := some v) hf hfree
      have hlookup : Function.update q.fds fd (some seg) fd' = q.fds fd' :=
        Function.update_of_ne hne _ _
      exact (hkeep v name hn).trans ((hleads.fd (i := some v) hn hf).trans hlookup.symm)
  · rw [hkeep v name hn]
    exact hleads.map hn hm

/-- A descriptor is closed. -/
theorem renamed_close (hbooks : q.Books k) {i : Option Var} (hi : q.hasFd i = some fd)
    (hfds : q'.fds = (close q fd).fds) (hmaps : q'.maps = q.maps)
    (hname : ∀ j, q'.hasName j = q.hasName j) (hnone : q'.hasFd i = none)
    (hfd : ∀ j, j ≠ i → q'.hasFd j = q.hasFd j) (hmap : ∀ v, q'.hasMap v = q.hasMap v) :
    Renamed k q (k, q') where
  step := .same hname
  leads h := by
    refine ⟨fun {j name fd'} hn hf => ?_, fun {v name r} hn hm => ?_⟩
    · have hj : j ≠ i := by
        rintro rfl
        rw [hnone] at hf
        cases hf
      rw [hfd j hj] at hf
      have hne : fd' ≠ fd := by
        rintro rfl
        exact hj (hbooks.fds.once hf hi)
      have hlookup : (close q fd).fds fd' = q.fds fd' := Function.update_of_ne hne _ _
      rw [hfds, hlookup]
      exact h.fd ((hname j).symm.trans hn) hf
    · rw [hmaps]
      exact h.map ((hname _).symm.trans hn) ((hmap v).symm.trans hm)

theorem renamed_closeCall (hbooks : q.Books k) (hfd : q.pc.fd? = some fd) (hpcfd : pc.fd? = none)
    (hname : pc.owned? = q.pc.owned?) : Renamed k q (k, { close q fd with pc }) := by
  refine renamed_close hbooks (i := none) hfd rfl rfl (fun j => ?_) hpcfd (fun j hj => ?_)
    fun _ => rfl
  · cases j with
    | none => exact hname
    | some w => rfl
  · cases j with
    | none => exact absurd rfl hj
    | some w => rfl

theorem renamed_closeVar (hbooks : q.Books k) (hv : q.vars v = some x) (hx : x.fd ≥ 0)
    (hpcfd : pc.fd? = q.pc.fd?) (hpcname : pc.owned? = q.pc.owned?) :
    Renamed k q (k, { close q x.fd with
      vars := Function.update q.vars v (some { x with fd := -1 }), pc }) := by
  refine renamed_close hbooks (i := some v) (by simp [hv, PosixSharedMemory.fd?, hx]) rfl rfl
    (fun j => ?_) (by simp [PosixSharedMemory.fd?]) (fun j hj => ?_) fun w => ?_
  · cases j with
    | none => exact hpcname
    | some w =>
      by_cases hw : w = v
      · simp [hw, hv, PosixSharedMemory.owned?]
      · simp [Function.update_of_ne hw]
  · cases j with
    | none => exact hpcfd
    | some w =>
      have hw : w ≠ v := by simpa using hj
      simp [Function.update_of_ne hw]
  · by_cases hw : w = v
    · simp [Proc.hasMap, hw, hv, PosixSharedMemory.mapping?]
    · simp [Proc.hasMap, Function.update_of_ne hw]

theorem renamed_munmap (hbooks : q.Books k) (hv : q.vars v = some x) (hx : x.addr ≠ 0)
    (hpcfd : pc.fd? = q.pc.fd?) (hpcname : pc.owned? = q.pc.owned?) :
    Renamed k q (k, { munmap q x.addr with
      vars := Function.update q.vars v (some { x with addr := 0 }), pc }) := by
  have hvars : ∀ w, w ≠ v → Function.update q.vars v (some { x with addr := 0 }) w = q.vars w :=
    fun w hw => Function.update_of_ne hw _ _
  have hold : q.hasMap v = some (x.addr, x.size) := by
    simp [Proc.hasMap, hv, PosixSharedMemory.mapping?, hx]
  have hname : ∀ j, Proc.hasName { munmap q x.addr with
      vars := Function.update q.vars v (some { x with addr := 0 }), pc } j = q.hasName j := by
    intro j
    cases j with
    | none => exact hpcname
    | some w =>
      by_cases hw : w = v
      · simp [hw, hv, PosixSharedMemory.owned?]
      · simp [hvars w hw]
  refine ⟨.same hname, fun h => ⟨fun {j name fd} hn hf => ?_, fun {w name r} hn hm => ?_⟩⟩
  · refine h.fd ((hname j).symm.trans hn) (i := j) ?_
    cases j with
    | none => exact hpcfd.symm.trans hf
    | some w =>
      by_cases hw : w = v
      · simpa [hw, hv, PosixSharedMemory.fd?] using hf
      · simpa [hvars w hw] using hf
  · have hw : w ≠ v := by
      rintro rfl
      simp [Proc.hasMap, PosixSharedMemory.mapping?] at hm
    have hmap : q.hasMap w = some r := by simpa [Proc.hasMap, hvars w hw] using hm
    have hne : r.1 ≠ x.addr := by
      intro heq
      obtain ⟨seg, hseg⟩ := hbooks.maps.taken_of_has hmap
      obtain ⟨seg', hseg'⟩ := hbooks.maps.taken_of_has hold
      rw [heq, hseg'] at hseg
      have hsize : x.size = r.2 := congrArg Prod.fst (Option.some.inj hseg)
      exact hw (hbooks.maps.once hmap (hold.trans (by rw [← heq, hsize])))
    have hlookup : (munmap q x.addr).maps r.1 = q.maps r.1 := Function.update_of_ne hne _ _
    exact (h.map ((hname _).symm.trans hn) hmap).trans (congrArg (Option.map Prod.snd) hlookup.symm)

/-- The mapping of a call goes to its result, and with it the descriptor and the name. -/
theorem renamed_mapResult (hbooks : q.Books k) {seg : Seg} {addr bytes : UInt64} {owner : Bool}
    {name : String} (hv : q.vars v = none) (hpcfd : q.pc.fd? = some fd)
    (hfd : q.fds fd = some seg) (hfree : q.maps addr = none) (haddr : addr ≠ 0)
    (hname : q.pc.owned? = if owner then some name else none) :
    Renamed k q (k, { q with maps := Function.update q.maps addr (some (bytes, seg)) }.result v
      { addr, size := bytes, fd, owner, name }) := by
  have hvars : ∀ w, w ≠ v → Function.update q.vars v
      (some { addr, size := bytes, fd, owner, name }) w = q.vars w :=
    fun w hw => Function.update_of_ne hw _ _
  have hnonneg := (hbooks.made hfd).1
  refine ⟨.moved none (some v) ?_ ?_ rfl fun i hi hi' => ?_, fun h =>
    ⟨fun {i name' fd'} hn hf => ?_, fun {w name' r} hn hm => ?_⟩⟩
  · simp [hv]
  · simp [Proc.result, PosixSharedMemory.owned?, hname]
  · cases i with
    | none => exact absurd rfl hi
    | some w =>
      have hw : w ≠ v := by simpa using hi'
      simp [Proc.result, hvars w hw]
  · cases i with
    | none => cases hf
    | some w =>
      by_cases hw : w = v
      · subst hw
        obtain rfl : fd = fd' := by simpa [Proc.result, PosixSharedMemory.fd?, hnonneg] using hf
        refine h.fd (i := none) ?_ hpcfd
        rw [hasName_none, hname]
        simpa [Proc.result, PosixSharedMemory.owned?] using hn
      · refine h.fd (i := some w) ?_ ?_
        · simpa [Proc.result, hvars w hw] using hn
        · simpa [Proc.result, hvars w hw] using hf
  · by_cases hw : w = v
    · subst hw
      obtain rfl : (addr, bytes) = r := by
        simpa [Proc.hasMap, Proc.result, PosixSharedMemory.mapping?, haddr] using hm
      have hseg : k.names name' = q.fds fd := by
        refine h.fd (i := none) ?_ hpcfd
        rw [hasName_none, hname]
        simpa [Proc.result, PosixSharedMemory.owned?] using hn
      simp [Proc.result, hseg, hfd]
    · have hmap : q.hasMap w = some r := by simpa [Proc.hasMap, Proc.result, hvars w hw] using hm
      have hne : r.1 ≠ addr := by
        rintro rfl
        obtain ⟨seg', hseg'⟩ := hbooks.maps.taken_of_has hmap
        rw [hfree] at hseg'
        cases hseg'
      simp only [Proc.result, Function.update_of_ne hne]
      refine h.map ?_ hmap
      simpa [Proc.result, hvars w hw] using hn

theorem renamed_move {src : Var} (hne : v ≠ src) (hpcname : q.pc.owned? = none)
    (hpcfd : q.pc.fd? = none) (hv : q.vars v = none ∨ ∃ x, q.vars v = some x ∧ x.owner = false)
    (name error : String) :
    Renamed k q (k, q.move v src name error) := by
  have hbare : (q.vars v).bind PosixSharedMemory.owned? = none := by
    rcases hv with hv | ⟨x, hv, howner⟩
    · simp [hv]
    · simp [hv, PosixSharedMemory.owned?, howner]
  unfold Proc.move
  cases hsrc : q.vars src with
  | none => exact renamed_pc hpcname.symm hpcfd.symm
  | some x =>
    dsimp only
    let q' : Proc := { q with
      vars := Function.update (Function.update q.vars src (some (x.movedFrom name error))) v (some x)
      pc := .idle }
    change Renamed k q (k, q')
    have hat : q'.vars v = q.vars src := (Function.update_self ..).trans hsrc.symm
    have hsrc' : q'.vars src = some (x.movedFrom name error) := by
      simp [q', Function.update_of_ne hne.symm]
    have hother : ∀ w, w ≠ src → w ≠ v → q'.vars w = q.vars w := fun w hw hw' => by
      simp [q', Function.update_of_ne hw, Function.update_of_ne hw']
    -- where an object of the new state was before
    have hback : ∀ w, (q'.vars w).bind PosixSharedMemory.owned? ≠ none →
        ∃ u, q'.vars w = q.vars u := by
      intro w hw
      by_cases hwv : w = v
      · exact ⟨src, hwv ▸ hat⟩
      · by_cases hws : w = src
        · rw [hws, hsrc'] at hw
          exact absurd rfl hw
        · exact ⟨w, hother w hws hwv⟩
    refine ⟨.moved (some src) (some v) hbare ?_ ?_ ?_, fun h =>
      ⟨fun {i name' fd} hn hf => ?_, fun {w name' r} hn hm => ?_⟩⟩
    · simp [hat]
    · simp [hsrc', PosixSharedMemory.owned?, PosixSharedMemory.movedFrom]
    · rintro (_ | w) hw hw'
      · exact hpcname.symm
      · simp only [ne_eq, Option.some.injEq] at hw hw'
        simp [hother w hw hw']
    · cases i with
      | none => cases hf
      | some w =>
        obtain ⟨u, hu⟩ := hback w (by rw [← hasName_some, hn]; exact Option.some_ne_none _)
        refine h.fd (i := some u) ?_ ?_
        · rwa [hasName_some, hu] at hn
        · rwa [hasFd_some, hu] at hf
    · obtain ⟨u, hu⟩ := hback w (by rw [← hasName_some, hn]; exact Option.some_ne_none _)
      refine h.map (v := u) ?_ ?_
      · rwa [hasName_some, hu] at hn
      · rwa [Proc.hasMap, hu] at hm

/-- An owner removes its name. -/
theorem renamed_unlink (hclaims : q.Claims k.names) {i : Option Var} {name : String}
    (hold : q.hasName i = some name)
    (hnone : q'.hasName i = none) (hname : ∀ j, j ≠ i → q'.hasName j = q.hasName j)
    (hfd : ∀ j, j ≠ i → q'.hasFd j = q.hasFd j) (hmap : ∀ v, some v ≠ i → q'.hasMap v = q.hasMap v)
    (hfds : q'.fds = q.fds) (hmaps : q'.maps = q.maps) :
    Renamed k q (shmUnlink k name, q') := by
  have hkeep : ∀ {j name'}, j ≠ i → q.hasName j = some name' →
      (shmUnlink k name).names name' = k.names name' := by
    intro j name' hj hn
    refine Function.update_of_ne ?_ _ _
    rintro rfl
    exact hj (hclaims.apart hn hold)
  have hne : ∀ {j name'}, q'.hasName j = some name' → j ≠ i := by
    rintro j name' hn rfl
    rw [hnone] at hn
    cases hn
  refine ⟨.removed i name hold hnone hname, fun h =>
    ⟨fun {j name' fd} hn hf => ?_, fun {w name' r} hn hm => ?_⟩⟩
  · have hj := hne hn
    rw [hname j hj] at hn
    rw [hfd j hj] at hf
    rw [hkeep hj hn, hfds]
    exact h.fd hn hf
  · have hw := hne hn
    rw [hname _ hw] at hn
    rw [hmap w hw] at hm
    rw [hkeep hw hn, hmaps]
    exact h.map hn hm

/-- `close` has returned, with nothing left in the object. -/
theorem renamed_finish (hv : q.vars v = some x) (haddr : x.addr = 0) (hclosed : x.fd < 0)
    (howner : x.owner = false) (hpcname : q.pc.owned? = none) (hpcfd : q.pc.fd? = none)
    (hafter : after.Ok q v) : Renamed k q (k, q.finish v after) := by
  cases after with
  | done => exact renamed_pc hpcname.symm hpcfd.symm
  | destroy =>
    refine renamed_vars hpcname.symm hpcfd.symm ?_ ?_ ?_
    · simp [hv, PosixSharedMemory.owned?, howner]
    · simp [hv, PosixSharedMemory.fd?, hclosed]
    · simp [hv, PosixSharedMemory.mapping?, haddr]
  | assign src name error =>
    exact renamed_move hafter.2 hpcname hpcfd (.inr ⟨x, hv, howner⟩) name error

theorem renamed_closeName (hclaims : q.Claims k.names) (hempty : k.names "" = none)
    (hq : q.pc = .closeName v after) (hv : q.vars v = some x) (haddr : x.addr = 0)
    (hclosed : x.fd < 0) (hafter : after.Ok q v) (reply : Reply) :
    Renamed k q (q.turn strerror k reply).1 := by
  have hpcname : q.pc.owned? = none := by rw [hq]; rfl
  have hpcfd : q.pc.fd? = none := by rw [hq]; rfl
  have hset : ∀ y : PosixSharedMemory, ∀ w, w ≠ v →
      Function.update q.vars v (some y) w = q.vars w := fun y w hw => Function.update_of_ne hw _ _
  have hend : ∀ (k' : Kernel) (y : PosixSharedMemory), y.addr = 0 → y.fd < 0 → y.owner = false →
      Renamed k' { q with vars := Function.update q.vars v (some y) }
        (k', { q with vars := Function.update q.vars v (some y) }.finish v after) :=
    fun k' y haddr hclosed howner => renamed_finish (Function.update_self ..) haddr hclosed howner
      hpcname hpcfd (hafter.keep fun w hw => hset y w hw)
  by_cases howner : x.owner ∧ x.name ≠ ""
  · let y := { x with owner := false, size := 0 }
    have hturn : (q.turn strerror k reply).1 = (shmUnlink k x.name,
        { q with vars := Function.update q.vars v (some y) }.finish v after) := by
      simp [Proc.turn, hq, hv, howner.1, howner.2, y]
    rw [hturn]
    refine Renamed.trans (r := (shmUnlink k x.name,
        { q with vars := Function.update q.vars v (some y) }))
      (renamed_unlink hclaims (i := some v) ?_ ?_ (fun j hj => ?_) (fun j hj => ?_)
        (fun w hw => ?_) rfl rfl)
      (hend _ y haddr hclosed rfl)
    · simp [hv, PosixSharedMemory.owned?, howner.1]
    · simp [PosixSharedMemory.owned?, y]
    · cases j with
      | none => rfl
      | some w => simp [hset _ w (by simpa using hj)]
    · cases j with
      | none => rfl
      | some w => simp [hset _ w (by simpa using hj)]
    · simp [Proc.hasMap, hset _ w (by simpa using hw)]
  · -- an owner has a name that exists, and the empty one does not
    have hnot : x.owner = false := by
      by_contra hne
      have howner' : x.owner = true := by simpa using hne
      have hnil : x.name = "" := by
        by_contra hname
        exact howner ⟨howner', hname⟩
      have hold : q.hasName (some v) = some "" := by
        simp [hv, PosixSharedMemory.owned?, howner', hnil]
      exact hclaims.present hold hempty
    let y := { x with size := 0 }
    have hturn : (q.turn strerror k reply).1 = (k,
        { q with vars := Function.update q.vars v (some y) }.finish v after) := by
      simp [Proc.turn, hq, hv, hnot, y]
    rw [hturn]
    refine Renamed.trans (r := (k, { q with vars := Function.update q.vars v (some y) }))
      (renamed_vars rfl rfl ?_ ?_ ?_) (hend k y haddr hclosed hnot)
    · simp [hv, PosixSharedMemory.owned?, y]
    · simp [hv, PosixSharedMemory.fd?, y]
    · simp [hv, PosixSharedMemory.mapping?, haddr, y]

/-- `shm_open(O_CREAT|O_EXCL)`: the name and the descriptor come together. -/
theorem renamed_createOpen {name : String} {bytes : UInt64} (hclaims : q.Claims k.names)
    (hbooks : q.Books k) (hq : q.pc = .createOpen v name bytes) (hv : q.vars v = none)
    (reply : Reply) : Renamed k q (q.turn strerror k reply).1 := by
  have hpcname : q.pc.owned? = none := by rw [hq]; rfl
  have hpcfd : q.pc.fd? = none := by rw [hq]; rfl
  rcases shmOpenNew_cases k q name reply with heq | ⟨n, hname, hfree, hclosed, heq⟩
  · simp only [Proc.turn, hq, heq]
    exact renamed_result hv hpcname hpcfd (Int.negSucc_lt_zero 0) rfl rfl
  · have hnonneg : ¬ (n : Int) < 0 := by omega
    simp only [Proc.turn, hq, heq, if_neg hnonneg]
    refine ⟨.made none name k.made hname hfree hpcname rfl fun i hi => ?_, fun hleads =>
      leads_open hleads hbooks hclosed rfl (fun w name' hn => ?_) fun name' hn => ?_⟩
    · cases i with
      | none => exact absurd rfl hi
      | some w => rfl
    · refine Function.update_of_ne ?_ _ _
      rintro rfl
      exact hclaims.present hn hfree
    · obtain rfl : name = name' := Option.some.inj hn
      exact Function.update_self ..

theorem renamed_map {seg : Seg} {bytes : UInt64} (hbooks : q.Books k) (failed : Pc) (reply : Reply)
    (owner : Bool) (name : String) (hv : q.vars v = none) (hpcfd : q.pc.fd? = some fd)
    (hfd : q.fds fd = some seg) (hpcname : q.pc.owned? = if owner then some name else none)
    (hfailed : failed.fd? = some fd) (hfailedname : failed.owned? = q.pc.owned?) :
    Renamed k q (if (mmap q fd bytes reply).2 = MAP_FAILED then
        (k, { (mmap q fd bytes reply).1 with pc := failed })
      else
        (k, (mmap q fd bytes reply).1.result v
          { addr := (mmap q fd bytes reply).2, size := bytes, fd, owner, name })) := by
  rcases mmap_cases hfd bytes reply with heq | ⟨addr, haddr, hmapped, hfree, heq⟩
  · rw [heq, if_pos rfl]
    exact renamed_pc hfailedname (hfailed.trans hpcfd.symm)
  · rw [heq, if_neg hmapped]
    exact renamed_mapResult hbooks hv hpcfd hfd hfree haddr hpcname

theorem renamed_turn (hclaims : q.Claims k.names) (hempty : k.names "" = none) (h : q.Ok k)
    (reply : Reply) : Renamed k q (q.turn strerror k reply).1 := by
  obtain ⟨hbooks, hpc⟩ := h
  cases hq : q.pc with
  | idle =>
    simp only [Proc.turn, hq]
    exact renamed_same (fun _ => rfl) (fun _ => rfl) (fun _ => rfl) rfl rfl
  | createOpen v name bytes =>
    rw [hq] at hpc
    exact renamed_createOpen hclaims hbooks hq hpc reply
  | createTruncate v name bytes fd =>
    rw [hq] at hpc
    obtain ⟨hv, seg, hseg, -⟩ := hpc
    have hpcname : q.pc.owned? = some name := by rw [hq]; rfl
    have hpcfd : q.pc.fd? = some fd := by rw [hq]; rfl
    rcases ftruncate_cases (k := k) hseg bytes reply with heq | heq
    · have hturn : (q.turn strerror k reply).1 =
          (k, { q with pc := .createClose v name (errnoText strerror "ftruncate" reply) fd }) := by
        simp [Proc.turn, hq, heq]
      rw [hturn]
      exact renamed_pc hpcname.symm hpcfd.symm
    · have hturn : (q.turn strerror k reply).1 = ({ k with
          sizes := Function.update k.sizes seg bytes },
          { q with pc := .createMap v name bytes fd }) := by
        simp [Proc.turn, hq, heq]
      rw [hturn]
      have hpcstep : Renamed k q (k, { q with pc := .createMap v name bytes fd }) :=
        renamed_pc hpcname.symm hpcfd.symm
      exact ⟨hpcstep.step, hpcstep.leads⟩
  | createMap v name bytes fd =>
    rw [hq] at hpc
    obtain ⟨hv, seg, hseg, -⟩ := hpc
    have hpcname : q.pc.owned? = some name := by rw [hq]; rfl
    have hpcfd : q.pc.fd? = some fd := by rw [hq]; rfl
    simp only [Proc.turn, hq, apply_ite Prod.fst]
    exact renamed_map hbooks (.createClose v name _ fd) reply true name hv hpcfd hseg hpcname rfl
      hpcname.symm
  | createClose v name error fd =>
    have hpcname : q.pc.owned? = some name := by rw [hq]; rfl
    have hpcfd : q.pc.fd? = some fd := by rw [hq]; rfl
    simp only [Proc.turn, hq]
    exact renamed_closeCall hbooks hpcfd rfl hpcname.symm
  | createUnlink v name error =>
    rw [hq] at hpc
    have hpcname : q.pc.owned? = some name := by rw [hq]; rfl
    have hv : q.vars v = none := hpc
    have hbare : ∀ w, w ≠ v → (q.result v { name, error }).vars w = q.vars w :=
      fun w hw => Function.update_of_ne hw _ _
    simp only [Proc.turn, hq]
    refine renamed_unlink hclaims (i := none) hpcname rfl (fun j hj => ?_) (fun j hj => ?_)
      (fun w _ => ?_) rfl rfl
    · cases j with
      | none => exact absurd rfl hj
      | some w =>
        by_cases hw : w = v
        · simp [hw, hv, Proc.result, PosixSharedMemory.owned?]
        · simp [hbare w hw]
    · cases j with
      | none => exact absurd rfl hj
      | some w =>
        by_cases hw : w = v
        · simp [hw, hv, Proc.result, PosixSharedMemory.fd?]
        · simp [hbare w hw]
    · by_cases hw : w = v
      · simp [Proc.hasMap, hw, hv, Proc.result, PosixSharedMemory.mapping?]
      · simp [Proc.hasMap, hbare w hw]
  | existingOpen v name bytes =>
    rw [hq] at hpc
    have hpcname : q.pc.owned? = none := by rw [hq]; rfl
    have hpcfd : q.pc.fd? = none := by rw [hq]; rfl
    rcases shmOpen_cases k q name reply with heq | ⟨n, seg, -, hclosed, heq⟩
    · simp only [Proc.turn, hq, heq]
      exact renamed_result hpc hpcname hpcfd (Int.negSucc_lt_zero 0) rfl rfl
    · have hnonneg : ¬ (n : Int) < 0 := by omega
      simp only [Proc.turn, hq, heq, if_neg hnonneg]
      refine ⟨.same fun i => ?_, fun hleads =>
        leads_open hleads hbooks hclosed rfl (fun _ _ _ => rfl) fun name' hn => ?_⟩
      · cases i with
        | none => exact hpcname.symm
        | some w => rfl
      · cases hn
  | existingStat v name bytes fd =>
    have hpcname : q.pc.owned? = none := by rw [hq]; rfl
    have hpcfd : q.pc.fd? = some fd := by rw [hq]; rfl
    have hclose : ∀ error, Renamed k q (k, { q with pc := .existingClose v name error fd }) :=
      fun error => renamed_pc hpcname.symm hpcfd.symm
    simp only [Proc.turn, hq]
    cases hstat : fstat k q fd reply with
    | none => exact hclose _
    | some size =>
      by_cases hsmall : size < bytes
      · simp only [if_pos hsmall]
        exact hclose _
      · simp only [if_neg hsmall]
        exact renamed_pc hpcname.symm hpcfd.symm
  | existingMap v name bytes fd =>
    rw [hq] at hpc
    obtain ⟨hv, seg, hseg, -⟩ := hpc
    have hpcname : q.pc.owned? = none := by rw [hq]; rfl
    have hpcfd : q.pc.fd? = some fd := by rw [hq]; rfl
    simp only [Proc.turn, hq, apply_ite Prod.fst]
    exact renamed_map hbooks (.existingClose v name _ fd) reply false name hv hpcfd hseg hpcname rfl
      hpcname.symm
  | existingClose v name error fd =>
    rw [hq] at hpc
    have hpcname : q.pc.owned? = none := by rw [hq]; rfl
    have hpcfd : q.pc.fd? = some fd := by rw [hq]; rfl
    simp only [Proc.turn, hq]
    refine Renamed.trans (r := (k, { close q fd with pc := .idle }))
      (renamed_closeCall hbooks hpcfd rfl hpcname.symm)
      (renamed_result (x := { name, error }) hpc rfl rfl (Int.negSucc_lt_zero 0) rfl rfl)
  | closeMap v after =>
    rw [hq] at hpc
    obtain ⟨x, hx⟩ := Option.ne_none_iff_exists'.mp hpc.1
    have hpcname : q.pc.owned? = none := by rw [hq]; rfl
    have hpcfd : q.pc.fd? = none := by rw [hq]; rfl
    simp only [Proc.turn, hq, hx]
    by_cases haddr : x.addr ≠ 0
    · simp only [if_pos haddr]
      exact renamed_munmap hbooks hx haddr hpcfd.symm hpcname.symm
    · simp only [if_neg haddr]
      exact renamed_pc hpcname.symm hpcfd.symm
  | closeFd v after =>
    rw [hq] at hpc
    obtain ⟨⟨x, hx, -⟩, -⟩ := hpc
    have hpcname : q.pc.owned? = none := by rw [hq]; rfl
    have hpcfd : q.pc.fd? = none := by rw [hq]; rfl
    simp only [Proc.turn, hq, hx]
    by_cases hopen : x.fd ≥ 0
    · simp only [if_pos hopen]
      exact renamed_closeVar hbooks hx hopen hpcfd.symm hpcname.symm
    · simp only [if_neg hopen]
      exact renamed_pc hpcname.symm hpcfd.symm
  | closeName v after =>
    rw [hq] at hpc
    obtain ⟨⟨x, hx, haddr, hclosed⟩, hafter⟩ := hpc
    exact renamed_closeName hclaims hempty hq hx haddr hclosed hafter reply

theorem renamed_call (op : Op) : Renamed k q (k, q.call op) := by
  have hstay : Renamed k q (k, q) :=
    renamed_same (fun _ => rfl) (fun _ => rfl) (fun _ => rfl) rfl rfl
  unfold Proc.call
  by_cases hidle : q.pc = .idle
  swap
  · rw [if_pos hidle]
    exact hstay
  have hpcname : q.pc.owned? = none := by rw [hidle]; rfl
  have hpcfd : q.pc.fd? = none := by rw [hidle]; rfl
  have hpc : ∀ pc : Pc, pc.owned? = none → pc.fd? = none → Renamed k q (k, { q with pc }) :=
    fun pc hname hfd => renamed_pc (hname.trans hpcname.symm) (hfd.trans hpcfd.symm)
  rw [if_neg (not_not.mpr hidle)]
  cases op with
  | construct v =>
    by_cases hv : q.vars v = none
    · simp only [if_pos hv]
      exact renamed_result hv hpcname hpcfd (Int.negSucc_lt_zero 0) rfl rfl
    · simpa only [if_neg hv] using hstay
  | create v name bytes | openExisting v name bytes =>
    by_cases hv : q.vars v = none
    · by_cases hzero : bytes = 0
      · simp only [hv, ne_eq, not_true, if_false, if_pos hzero]
        exact renamed_result hv hpcname hpcfd (Int.negSucc_lt_zero 0) rfl rfl
      · simp only [hv, ne_eq, not_true, if_false, if_neg hzero]
        exact hpc _ rfl rfl
    · simpa only [ne_eq, hv, not_false_eq_true, if_true] using hstay
  | moveConstruct v src name error =>
    by_cases hv : q.vars v = none ∧ q.vars src ≠ none
    · simp only [if_pos hv]
      have hne : v ≠ src := by
        rintro rfl
        exact hv.2 hv.1
      exact renamed_move hne hpcname hpcfd (.inl hv.1) name error
    · simpa only [if_neg hv] using hstay
  | moveAssign v src name error =>
    by_cases hv : q.vars v ≠ none ∧ q.vars src ≠ none ∧ v ≠ src
    · simp only [if_pos hv]
      exact hpc _ rfl rfl
    · simpa only [if_neg hv] using hstay
  | close v | destroy v =>
    by_cases hv : q.vars v = none
    · simpa only [if_pos hv] using hstay
    · simp only [if_neg hv]
      exact hpc _ rfl rfl

end Process

/-! ## All processes -/

def World.hasName (w : World) : Pid × Option Var → Option String :=
  fun h => (w.procs h.1).hasName h.2

/-- Every name has one owner or is in `rest`, and leads to what the owner has. -/
structure World.Owned (rest : String → Prop) (w : World) : Prop where
  names : Accounted (fun name => w.kernel.names name ≠ none) w.hasName rest
  empty : w.kernel.names "" = none
  leads : ∀ p, (w.procs p).Leads w.kernel.names

/-- The owners when process `p` has these names. -/
def World.holders (w : World) (p : Pid) (has : Option Var → Option String) :
    Pid × Option Var → Option String :=
  fun h => if h.1 = p then has h.2 else w.hasName h

section World

variable {strerror : Nat → String} {w : World} {p : Pid} {rest : String → Prop}

theorem holders_self (has : Option Var → Option String) (i : Option Var) :
    w.holders p has (p, i) = has i := if_pos rfl

theorem holders_congr {has has' : Option Var → Option String} {i : Option Var}
    (h : ∀ j, j ≠ i → has' j = has j) (x : Pid × Option Var) (hx : x ≠ (p, i)) :
    w.holders p has' x = w.holders p has x := by
  obtain ⟨p', j⟩ := x
  by_cases hp : p' = p
  · subst hp
    have hj : j ≠ i := by
      rintro rfl
      exact hx rfl
    rw [holders_self, holders_self, h j hj]
  · simp only [World.holders, if_neg hp]

/-- What one process does to the names keeps the books, and the names of the others. -/
theorem NameStep.accounted {names names' : Names} {has has' : Option Var → Option String}
    (hstep : NameStep names has names' has')
    (h : Accounted (fun name => names name ≠ none) (w.holders p has) rest) (hempty : names "" = none) :
    Accounted (fun name => names' name ≠ none) (w.holders p has') rest ∧ names' "" = none ∧
      ∀ p', p' ≠ p → ∀ i name, (w.procs p').hasName i = some name → names' name = names name := by
  have hothers : ∀ {has : Option Var → Option String} {p' : Pid} {i : Option Var} {name : String},
      p' ≠ p → (w.procs p').hasName i = some name → w.holders p has (p', i) = some name := by
    intro has p' i name hp hn
    rw [World.holders, if_neg hp]
    exact hn
  induction hstep with
  | same hhas =>
    refine ⟨h.congr (fun _ => Iff.rfl) fun x => ?_, hempty, fun _ _ _ _ _ => rfl⟩
    simp only [World.holders, hhas]
  | moved i j hnone hj hi hother =>
    refine ⟨h.transfer (h := (p, i)) (i := (p, j)) ?_ ?_ ?_ fun x hx hx' => ?_, hempty,
      fun _ _ _ _ _ => rfl⟩
    · rw [holders_self, hnone]
    · rw [holders_self, holders_self, hj]
    · rw [holders_self, hi]
    · obtain ⟨p', l⟩ := x
      by_cases hp : p' = p
      · subst hp
        rw [holders_self, holders_self]
        exact hother l (fun hl => hx (by rw [hl])) fun hl => hx' (by rw [hl])
      · simp only [World.holders, if_neg hp]
  | @made names has has' i name seg hname hfree hnone hi hother =>
    refine ⟨h.acquire (h := (p, i)) (r := name) (not_not.mpr hfree) ((holders_self ..).trans hnone)
      (fun name' => ?_) ((holders_self ..).trans hi) (holders_congr hother), ?_,
      fun p' hp l name' hn => ?_⟩
    · by_cases heq : name' = name
      · simp [heq]
      · simp [heq]
    · rw [Function.update_of_ne hname.symm]
      exact hempty
    · refine Function.update_of_ne ?_ _ _
      rintro rfl
      exact h.taken_of_has (hothers hp hn) hfree
  | @removed names has has' i name hold hi hother =>
    have hself : w.holders p has (p, i) = some name := (holders_self ..).trans hold
    refine ⟨h.release (h := (p, i)) (r := name) hself (fun name' => ?_)
      ((holders_self ..).trans hi) (holders_congr hother), ?_, fun p' hp l name' hn => ?_⟩
    · by_cases heq : name' = name
      · simp [heq]
      · simp [heq]
    · by_cases heq : "" = name
      · simp [heq]
      · rw [Function.update_of_ne heq]
        exact hempty
    · refine Function.update_of_ne ?_ _ _
      rintro rfl
      have hsame := h.once (hothers hp hn) hself
      exact hp (congrArg Prod.fst hsame)
  | trans h₁ h₂ ih₁ ih₂ =>
    obtain ⟨hacc₁, hempty₁, hkeep₁⟩ := ih₁ h hempty
    obtain ⟨hacc₂, hempty₂, hkeep₂⟩ := ih₂ hacc₁ hempty₁
    exact ⟨hacc₂, hempty₂, fun p' hp i name hn =>
      (hkeep₂ p' hp i name hn).trans (hkeep₁ p' hp i name hn)⟩

theorem World.Owned.claims (h : w.Owned rest) (p : Pid) : (w.procs p).Claims w.kernel.names where
  present hn := h.names.taken_of_has (h := (p, _)) hn
  apart hn hn' := congrArg Prod.snd (h.names.once (h := (p, _)) (i := (p, _)) hn hn')

theorem World.Owned.set (h : w.Owned rest) {r : Kernel × Proc}
    (hr : Renamed w.kernel (w.procs p) r) : (w.set p r).Owned rest := by
  have hself : (w.set p r).procs p = r.2 := Function.update_self ..
  have hother : ∀ {p'}, p' ≠ p → (w.set p r).procs p' = w.procs p' :=
    fun hne => Function.update_of_ne hne _ _
  have hbefore : Accounted (fun name => w.kernel.names name ≠ none)
      (w.holders p (w.procs p).hasName) rest := by
    refine h.names.congr (fun _ => Iff.rfl) fun x => ?_
    by_cases hx : x.1 = p
    · rw [World.holders, if_pos hx, World.hasName, hx]
    · rw [World.holders, if_neg hx]
  obtain ⟨hacc, hempty, hkeep⟩ := hr.step.accounted hbefore h.empty
  refine ⟨hacc.congr (fun _ => Iff.rfl) fun x => ?_, hempty, fun p' => ?_⟩
  · by_cases hx : x.1 = p
    · rw [World.holders, if_pos hx, World.hasName, hx, hself]
    · rw [World.holders, if_neg hx, World.hasName, hother hx, World.hasName]
  · by_cases hp : p' = p
    · rw [hp, hself]
      exact hr.leads (h.leads p)
    · rw [hother hp]
      refine ⟨fun hn hf => ?_, fun hn hm => ?_⟩
      · exact (hkeep p' hp _ _ hn).trans ((h.leads p').fd hn hf)
      · exact (hkeep p' hp _ _ hn).trans ((h.leads p').map hn hm)

end World

/-! ## Every run -/

abbrev Event := Lib.Event World Input (Option Syscall)

/-- The name belonged to a process that died. -/
def LeftBehind (h : List Event) (name : String) : Prop :=
  ∃ e ∈ h, ∃ p i, e.input = .die p ∧ (e.pre.procs p).hasName i = some name

/-- The static `unlink` is for names that nobody uses. -/
def Polite (w : World) (i : Input) : Prop := ∀ name, i = .unlink name → ∀ h, w.hasName h ≠ some name

section Run

variable {strerror : Nat → String} {w : World} {h : List Event}

theorem hasName_fresh (i : Option Var) : ({} : Proc).hasName i = none := by cases i <;> rfl

theorem leads_fresh (names : Names) : ({} : Proc).Leads names where
  fd hn _ := by
    rw [hasName_fresh] at hn
    cases hn
  map hn _ := by
    rw [hasName_fresh] at hn
    cases hn

theorem owned_start : World.start.Owned (LeftBehind []) where
  names :=
    { taken_of_has := fun hn => by
        rw [show World.start.hasName _ = none from hasName_fresh _] at hn
        cases hn
      once := fun hn => by
        rw [show World.start.hasName _ = none from hasName_fresh _] at hn
        cases hn
      held := fun hn => absurd rfl hn }
  empty := rfl
  leads _ := leads_fresh _

theorem leftBehind_concat (e : Event) (name : String) (hname : LeftBehind h name) :
    LeftBehind (h ++ [e]) name := by
  obtain ⟨e', he', hrest⟩ := hname
  exact ⟨e', List.mem_append_left _ he', hrest⟩

theorem World.Owned.step (hok : w.Ok) (hw : w.Owned (LeftBehind h)) {i : Input}
    (hpolite : Polite w i) :
    (w.step strerror i).1.Owned (LeftBehind (h ++ [event (World.step strerror) w i])) := by
  have hmono : ∀ {w' : World}, w'.Owned (LeftBehind h) →
      w'.Owned (LeftBehind (h ++ [event (World.step strerror) w i])) :=
    fun hw' => ⟨hw'.names.mono_rest fun name => leftBehind_concat _ name, hw'.empty, hw'.leads⟩
  cases i with
  | call p op => exact hmono (hw.set (renamed_call op))
  | turn p reply => exact hmono (hw.set (renamed_turn (hw.claims p) hw.empty (hok.procs p) reply))
  | die p =>
    have hself : (w.set p (w.kernel, {})).procs p = {} := Function.update_self ..
    have hother : ∀ {p'}, p' ≠ p → (w.set p (w.kernel, {})).procs p' = w.procs p' :=
      fun hne => Function.update_of_ne hne _ _
    refine ⟨hw.names.abandon (fun x => x.1 = p) (fun x hx => ?_) (fun x hx => ?_)
      (fun name hname => ?_), hw.empty, fun p' => ?_⟩
    · obtain ⟨p', i⟩ := x
      obtain rfl : p' = p := hx
      change ((w.set p' (w.kernel, {})).procs p').hasName i = none
      rw [hself]
      exact hasName_fresh i
    · change ((w.set p (w.kernel, {})).procs x.1).hasName x.2 = w.hasName x
      rw [hother hx]
      rfl
    · rcases hname with hold | ⟨x, rfl, hx⟩
      · exact leftBehind_concat _ name hold
      · exact ⟨_, List.mem_append_right _ (List.mem_singleton_self _), x.1, x.2, rfl, hx⟩
    · by_cases hp : p' = p
      · change ((w.set p (w.kernel, {})).procs p').Leads w.kernel.names
        rw [hp, hself]
        exact leads_fresh _
      · change ((w.set p (w.kernel, {})).procs p').Leads w.kernel.names
        rw [hother hp]
        exact hw.leads p'
  | unlink name =>
    have hnobody := hpolite name rfl
    have hkeep : ∀ {name'}, name' ≠ name →
        (shmUnlink w.kernel name).names name' = w.kernel.names name' :=
      fun hne => Function.update_of_ne hne _ _
    have hne : ∀ {p i name'}, (w.procs p).hasName i = some name' → name' ≠ name := by
      rintro p i name' hn rfl
      exact hnobody (p, i) hn
    refine hmono ⟨hw.names.clear (r := name) hnobody (fun name' => ?_) (fun _ => .inr), ?_, fun p =>
      ⟨fun hn hf => ?_, fun hn hm => ?_⟩⟩
    · by_cases heq : name' = name
      · simp [World.step, shmUnlink, heq]
      · simp [World.step, hkeep heq, heq]
    · by_cases heq : "" = name
      · simp [World.step, shmUnlink, heq]
      · exact (hkeep heq).trans hw.empty
    · exact (hkeep (hne hn)).trans ((hw.leads p).fd hn hf)
    · exact (hkeep (hne hn)).trans ((hw.leads p).map hn hm)

end Run

/-- **The creator, and only the creator, removes the name.** As long as the static
`unlink` is not called on a name in use: every name there is has exactly one owner, or
was left behind by an owner that died; the name of a creator that has its segment
mapped leads to this segment; and when all objects are gone, so is every descriptor,
every mapping and every name that was not left behind. -/
theorem names_accounted (strerror : Nat → String) (inputs : List Input)
    (hpolite : ∀ e ∈ trace (World.step strerror) World.start inputs, Polite e.pre e.input) :
    let h := trace (World.step strerror) World.start inputs
    let t := exec (World.step strerror) World.start inputs
    Accounted (fun name => t.kernel.names name ≠ none) t.hasName (LeftBehind h) ∧
    (∀ p v x, (t.procs p).vars v = some x → x.owner = true → x.valid →
      ∃ seg, t.kernel.names x.name = some seg ∧ (t.procs p).maps x.addr = some (x.size, seg)) ∧
    ((∀ p, (t.procs p).pc = .idle ∧ ∀ v, (t.procs p).vars v = none) →
      (∀ name, t.kernel.names name ≠ none → LeftBehind h name) ∧
      ∀ p, (∀ fd, (t.procs p).fds fd = none) ∧ ∀ addr, (t.procs p).maps addr = none) := by
  intro h t
  obtain ⟨hok, howned⟩ : t.Ok ∧ t.Owned (LeftBehind h) :=
    history_induction (World.step strerror) (I := fun h w => w.Ok ∧ w.Owned (LeftBehind h))
      (fun h w i hi hI => ⟨hI.1.step i, hI.2.step hI.1 hi⟩) _ ⟨start_ok, owned_start⟩ inputs hpolite
  refine ⟨howned.names, fun p v x hv howner hvalid => ?_, fun hgone => ⟨fun name hname => ?_,
    fun p => ⟨fun fd => ?_, fun addr => ?_⟩⟩⟩
  · have hname : (t.procs p).hasName (some v) = some x.name := by
      simp [hv, PosixSharedMemory.owned?, howner]
    have hmap : (t.procs p).hasMap v = some (x.addr, x.size) := by
      have haddr : x.addr ≠ 0 := hvalid
      simp [Proc.hasMap, hv, PosixSharedMemory.mapping?, haddr]
    obtain ⟨seg, hseg⟩ := (hok.procs p).books.maps.taken_of_has hmap
    refine ⟨seg, ?_, hseg⟩
    have hleads := (howned.leads p).map hname hmap
    rwa [hseg] at hleads
  · rcases howned.names.held hname with ⟨⟨p, i⟩, hn⟩ | hleft
    · obtain ⟨hidle, hvars⟩ := hgone p
      cases i with
      | none => simp [World.hasName, hidle, Pc.owned?] at hn
      | some v => simp [World.hasName, hvars v] at hn
    · exact hleft
  · by_contra hopen
    obtain ⟨i, hi⟩ := (hok.procs p).books.fds.taken_iff.mp hopen
    cases i with
    | none => simp [(hgone p).1, Pc.fd?] at hi
    | some v => simp [(hgone p).2 v] at hi
  · cases hmap : (t.procs p).maps addr with
    | none => rfl
    | some r =>
      obtain ⟨v, hv⟩ := (hok.procs p).books.maps.taken_iff.mp
        (show ∃ seg, (t.procs p).maps (addr, r.1).1 = some ((addr, r.1).2, seg) from ⟨r.2, hmap⟩)
      simp [Proc.hasMap, (hgone p).2 v] at hv

/-- One process creates a segment, another one fails to: the name is taken. -/
def creating : List Input :=
  [.call 1 (.create 0 "/ring" 200), .turn 1 (.granted 3), .turn 1 (.granted 0),
    .turn 1 (.granted 4096), .call 2 (.create 0 "/ring" 200), .turn 2 (.granted 3)]

theorem names_accounted_creating :
    let t := exec (World.step fun _ => "File exists") World.start creating
    (∃ seg, t.kernel.names "/ring" = some seg ∧ (t.procs 1).maps 4096 = some (200, seg)) ∧
      (t.procs 2).vars 0 = some { name := "/ring", error := "shm_open(O_CREAT|O_EXCL): File exists" } := by
  have hpolite : ∀ e ∈ trace (World.step fun _ => "File exists") World.start creating,
      Polite e.pre e.input := by
    intro e he name heq
    have hmem := input_mem_of_mem_trace _ _ _ e he
    simp [heq, creating] at hmem
  obtain ⟨-, howner, -⟩ := names_accounted (fun _ => "File exists") creating hpolite
  refine ⟨howner 1 0 { addr := 4096, size := 200, fd := 3, owner := true, name := "/ring" } ?_ rfl ?_,
    ?_⟩
  · decide
  · change (4096 : UInt64) ≠ 0
    decide
  · decide

end Lloms.PosixShm
