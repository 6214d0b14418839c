import EmbeddedCourse.MidnightCommander.Catalog

/-! # What `sortList` leaves

Entries that can all be examined are sorted: the directories first, and each
group in the order of `strcmp`. An entry on which `stat` fails is never
exchanged, and the entries on its two sides are sorted apart.
-/

namespace EmbeddedCourse.MidnightCommander

open CString

section

variable {stat : Bytes → Option Stat} {pathC : PathT}

/-! ## The two groups -/

/-- Sorted entries are the directories and then the others. -/
theorem directories_append {l : List Dirent} (h : l.Pairwise (Before stat pathC)) :
    l = l.filter (fun e => decide (isDirectory stat pathC e)) ++
      l.filter (fun e => !decide (isDirectory stat pathC e)) := by
  induction l with
  | nil => rfl
  | cons a t ih =>
    rcases List.pairwise_cons.mp h with ⟨ha, ht⟩
    by_cases hdir : isDirectory stat pathC a
    · rw [List.filter_cons_of_pos (by simpa using hdir), List.filter_cons_of_neg (by simpa using hdir),
        List.cons_append, ← ih ht]
    · -- nothing behind an entry that is no directory is one
      have hnone : ∀ b ∈ a :: t, ¬ isDirectory stat pathC b := by
        intro b hb
        rcases List.mem_cons.mp hb with rfl | hb
        · exact hdir
        · rcases ha b hb with ⟨hdir', -⟩ | ⟨hkind, -⟩
          · exact absurd hdir' hdir
          · exact fun hb' => hdir (hkind.mpr hb')
      have hnil : (a :: t).filter (fun e => decide (isDirectory stat pathC e)) = [] := by
        rw [List.filter_eq_nil_iff]
        intro b hb
        simpa using hnone b hb
      have hall : (a :: t).filter (fun e => !decide (isDirectory stat pathC e)) = a :: t := by
        rw [List.filter_eq_self]
        intro b hb
        simpa using hnone b hb
      rw [hnil, hall, List.nil_append]

/-- Entries of one kind that are sorted are in the order of their names. -/
theorem pairwise_names {l : List Dirent} (h : l.Pairwise (Before stat pathC))
    (hnames : ∀ e ∈ l, NoNul e.dName)
    (hkind : ∀ a ∈ l, ∀ b ∈ l, (isDirectory stat pathC a ↔ isDirectory stat pathC b)) :
    l.Pairwise fun a b => strcmp a.dName b.dName ≤ 0 := by
  apply h.imp_of_mem
  intro a b ha hb hab
  have hle : a.dName ≤ b.dName := by
    rcases hab with ⟨hdir, hnot⟩ | ⟨-, hle⟩
    · exact absurd ((hkind a ha b hb).mp hdir) hnot
    · exact hle
  have hpos : 0 < strcmp a.dName b.dName ↔ b.dName < a.dName := strcmp_pos_iff (hnames a ha)
  rw [← Int.not_lt, hpos]
  exact List.not_lt.mpr hle

end

/-- For every list of entries that can be examined: `sortList` leaves a permutation
of it, the directories in front, and both groups in the order of `strcmp`. -/
theorem sortList_sorts (stat : Bytes → Option Stat) (pathC : PathT) (entries : List Dirent)
    (hstat : ∀ e ∈ entries, (stat (fullName pathC e.dName)).isSome)
    (hnames : ∀ e ∈ entries, NoNul e.dName) :
    (sortList stat pathC entries).Perm entries ∧
      ∃ dirs others, sortList stat pathC entries = dirs ++ others ∧
        (∀ e ∈ dirs, isDirectory stat pathC e) ∧ (∀ e ∈ others, ¬ isDirectory stat pathC e) ∧
        dirs.Pairwise (fun a b => strcmp a.dName b.dName ≤ 0) ∧
        others.Pairwise (fun a b => strcmp a.dName b.dName ≤ 0) := by
  rcases sortList_spec hstat hnames with ⟨hperm, hsorted⟩
  have hnoNul : ∀ e ∈ sortList stat pathC entries, NoNul e.dName :=
    fun e he => hnames e (hperm.mem_iff.mp he)
  -- the two groups are what `isDirectory` tells apart
  have hdirs : ∀ e ∈ (sortList stat pathC entries).filter (fun e => decide (isDirectory stat pathC e)),
      isDirectory stat pathC e := by
    intro e he
    simpa using (List.mem_filter.mp he).2
  have hothers : ∀ e ∈ (sortList stat pathC entries).filter (fun e => !decide (isDirectory stat pathC e)),
      ¬ isDirectory stat pathC e := by
    intro e he
    simpa using (List.mem_filter.mp he).2
  refine ⟨hperm, _, _, directories_append hsorted, hdirs, hothers, ?_, ?_⟩
  · apply pairwise_names (hsorted.filter _)
    · exact fun e he => hnoNul e (List.mem_of_mem_filter he)
    · exact fun a ha b hb => ⟨fun _ => hdirs b hb, fun _ => hdirs a ha⟩
  · apply pairwise_names (hsorted.filter _)
    · exact fun e he => hnoNul e (List.mem_of_mem_filter he)
    · exact fun a ha b hb => ⟨fun h => absurd h (hothers a ha), fun h => absurd h (hothers b hb)⟩

/-- `a` and `d` are directories, everything else is a regular file. -/
def mixedStat (name : Bytes) : Option Stat :=
  some { stMode := if name = [46, 47, 97] ∨ name = [46, 47, 100] then .directory else .regular
         executable := false, stSize := 0, stMtime := 0 }

def mixed : List Dirent := [⟨[99]⟩, ⟨[100]⟩, ⟨[98, 98]⟩, ⟨[97]⟩, ⟨[98]⟩]

theorem sortList_sorts_mixed :
    sortList mixedStat createPathT mixed = [⟨[97]⟩, ⟨[100]⟩, ⟨[98]⟩, ⟨[98, 98]⟩, ⟨[99]⟩] ∧
      (sortList mixedStat createPathT mixed).Perm mixed :=
  ⟨by decide +kernel, (sortList_sorts mixedStat createPathT mixed (by decide +kernel) (by decide +kernel)).1⟩

/-! ## Entries that cannot be examined -/

/-- `stat` succeeds on the entry. -/
def examinable (stat : Bytes → Option Stat) (pathC : PathT) (e : Dirent) : Bool :=
  (stat (fullName pathC e.dName)).isSome

/-- What can be examined on the two sides of an entry that cannot is in order already. -/
def Unhindered (stat : Bytes → Option Stat) (pathC : PathT) (entries : List Dirent) : Prop :=
  ∀ A x B, entries = A ++ x :: B → examinable stat pathC x = false →
    ∀ a ∈ A, examinable stat pathC a = true → ∀ b ∈ B, examinable stat pathC b = true →
      Before stat pathC a b

section

variable {stat : Bytes → Option Stat} {pathC : PathT}

theorem exchanged_failing {x : Dirent} (hx : examinable stat pathC x = false) (y : Dirent) :
    exchanged stat pathC y x = false ∧ exchanged stat pathC x y = false := by
  have hnone : stat (fullName pathC x.dName) = none := by
    simpa [examinable] using hx
  unfold exchanged
  rw [hnone]
  constructor
  · cases stat (fullName pathC y.dName) <;> rfl
  · rfl

theorem before_antisymm {a b : Dirent} (hab : Before stat pathC a b) (hba : Before stat pathC b a) :
    a = b := by
  have hle : a.dName ≤ b.dName := by
    rcases hab with ⟨hdir, hnot⟩ | ⟨-, hle⟩
    · rcases hba with ⟨hdir', -⟩ | ⟨hkind, -⟩
      · exact absurd hdir' hnot
      · exact absurd (hkind.mpr hdir) hnot
    · exact hle
  have hge : b.dName ≤ a.dName := by
    rcases hba with ⟨hdir, hnot⟩ | ⟨-, hge⟩
    · rcases hab with ⟨hdir', -⟩ | ⟨hkind, -⟩
      · exact absurd hdir' hnot
      · exact absurd (hkind.mpr hdir) hnot
    · exact hge
  cases a
  cases b
  exact congrArg Dirent.mk (List.le_antisymm hle hge)

/-- The first entry that cannot be examined. -/
theorem first_failing {entries : List Dirent} (h : ¬ ∀ e ∈ entries, examinable stat pathC e = true) :
    ∃ A x B, entries = A ++ x :: B ∧ examinable stat pathC x = false ∧
      ∀ a ∈ A, examinable stat pathC a = true := by
  have hsome : (entries.find? fun e => !examinable stat pathC e).isSome := by
    rw [List.find?_isSome]
    simpa using h
  rcases Option.isSome_iff_exists.mp hsome with ⟨x, hx⟩
  rcases List.find?_eq_some_iff_append.mp hx with ⟨hfails, A, B, heq, hA⟩
  refine ⟨A, x, B, heq, by simpa using hfails, ?_⟩
  intro a ha
  simpa using hA a ha

theorem unhindered_append {A B : List Dirent} {x : Dirent} (hx : examinable stat pathC x = false)
    (hA : ∀ a ∈ A, examinable stat pathC a = true) :
    Unhindered stat pathC (A ++ x :: B) ↔
      (∀ a ∈ A, ∀ b ∈ B, examinable stat pathC b = true → Before stat pathC a b) ∧
        Unhindered stat pathC B := by
  constructor
  · intro h
    constructor
    · intro a ha
      exact h A x B rfl hx a ha (hA a ha)
    · intro A' y B' heq hy a ha
      have hsplit : A ++ x :: B = (A ++ x :: A') ++ y :: B' := by
        rw [heq, List.append_assoc, List.cons_append]
      exact h _ y B' hsplit hy a (by simp [ha])
  · rintro ⟨hfront, hback⟩ A' y B' heq hy a ha hexa b hb hexb
    rcases List.append_eq_append_iff.mp heq with ⟨C, rfl, hC⟩ | ⟨C, rfl, hC⟩
    · -- the entry `y` is `x`, or stands behind it
      cases C with
      | nil =>
        obtain ⟨rfl, rfl⟩ : x = y ∧ B = B' := List.cons.inj hC
        rw [List.append_nil] at ha
        exact hfront a ha b hb hexb
      | cons z C =>
        obtain ⟨rfl, rfl⟩ : x = z ∧ B = C ++ y :: B' := List.cons.inj hC
        rcases List.mem_append.mp ha with ha | ha
        · exact hfront a ha b (by simp [hb]) hexb
        · rcases List.mem_cons.mp ha with rfl | ha
          · rw [hx] at hexa
            cases hexa
          · exact hback C y B' rfl hy a ha hexa b hb hexb
    · -- it does not stand in front of it
      cases C with
      | nil =>
        obtain ⟨rfl, rfl⟩ : y = x ∧ B' = B := List.cons.inj hC
        rw [List.append_nil] at hfront
        exact hfront a ha b hb hexb
      | cons z C =>
        obtain ⟨rfl, -⟩ : y = z ∧ B' = C ++ x :: B := List.cons.inj hC
        have hyes := hA y (by simp)
        rw [hy] at hyes
        cases hyes

/-- The entries that can be examined are left sorted exactly when nothing hinders it. -/
theorem sorted_filter_iff {entries : List Dirent} (hnames : ∀ e ∈ entries, NoNul e.dName) :
    ((sortList stat pathC entries).filter (examinable stat pathC)).Pairwise (Before stat pathC) ↔
      Unhindered stat pathC entries := by
  -- by induction on the length: what stands behind the first failing entry is sorted on its own
  induction hn : entries.length using Nat.strong_induction_on generalizing entries with
  | _ n ih =>
    subst hn
    by_cases hall : ∀ e ∈ entries, examinable stat pathC e = true
    · rcases sortList_spec hall hnames with ⟨hperm, hsorted⟩
      constructor
      · intro _ A x B heq hx
        have hyes := hall x (by simp [heq])
        rw [hx] at hyes
        cases hyes
      · exact fun _ => hsorted.filter _
    · rcases first_failing hall with ⟨A, x, B, rfl, hx, hA⟩
      rcases Bubble.sort_barrier (exchanged_failing hx) A B with ⟨A', hperm, hsort⟩
      have hA' : ∀ a ∈ A', examinable stat pathC a = true := fun a ha => hA a (hperm.mem_iff.mp ha)
      have hspec := sortList_spec hA' fun a ha => hnames a (by simp [hperm.mem_iff.mp ha])
      have hB := ih B.length (by simp; omega) (fun b hb => hnames b (by simp [hb])) rfl
      have hkeep : (sortList stat pathC A').filter (examinable stat pathC) = sortList stat pathC A' := by
        rw [List.filter_eq_self]
        exact fun a ha => hA' a (hspec.1.mem_iff.mp ha)
      have hmemA : ∀ a, a ∈ sortList stat pathC A' ↔ a ∈ A := fun a =>
        hspec.1.mem_iff.trans hperm.mem_iff
      have hmemB : ∀ b, b ∈ (sortList stat pathC B).filter (examinable stat pathC) ↔
          b ∈ B ∧ examinable stat pathC b = true := by
        intro b
        have hpermB : (sortList stat pathC B).Perm B := Bubble.sort_perm B
        rw [List.mem_filter, hpermB.mem_iff]
      have hparts : sortList stat pathC (A ++ x :: B) = sortList stat pathC A' ++ x :: sortList stat pathC B :=
        hsort
      have hresult : (sortList stat pathC (A ++ x :: B)).filter (examinable stat pathC) =
          sortList stat pathC A' ++ (sortList stat pathC B).filter (examinable stat pathC) := by
        rw [hparts, List.filter_append, hkeep, List.filter_cons_of_neg (by simp [hx])]
      rw [hresult, List.pairwise_append, unhindered_append hx hA, ← hB]
      constructor
      · rintro ⟨-, hright, hcross⟩
        constructor
        · intro a ha b hb hexb
          exact hcross a ((hmemA a).mpr ha) b ((hmemB b).mpr ⟨hb, hexb⟩)
        · exact hright
      · rintro ⟨hcross, hright⟩
        refine ⟨hspec.2, hright, ?_⟩
        intro a ha b hb
        rcases (hmemB b).mp hb with ⟨hin, hexb⟩
        exact hcross a ((hmemA a).mp ha) b hin hexb

end

/-- For every list of entries and every choice of those on which `stat` fails: the
others come out as if these had not been there exactly when no such entry stands
between two of them that are in the wrong order. -/
theorem filter_sortList_iff (stat : Bytes → Option Stat) (pathC : PathT) (entries : List Dirent)
    (hnames : ∀ e ∈ entries, NoNul e.dName) :
    (sortList stat pathC entries).filter (examinable stat pathC) =
        sortList stat pathC (entries.filter (examinable stat pathC)) ↔
      Unhindered stat pathC entries := by
  have hexam : ∀ e ∈ entries.filter (examinable stat pathC), (stat (fullName pathC e.dName)).isSome :=
    fun e he => (List.mem_filter.mp he).2
  rcases sortList_spec hexam (fun e he => hnames e (List.mem_of_mem_filter he)) with ⟨hperm, hsorted⟩
  have hpermAll : (sortList stat pathC entries).Perm entries := Bubble.sort_perm entries
  rw [← sorted_filter_iff hnames]
  constructor
  · intro heq
    rw [heq]
    exact hsorted
  · intro hleft
    apply List.Perm.eq_of_pairwise (fun a b _ _ => before_antisymm) hleft hsorted
    exact (hpermAll.filter _).trans hperm.symm

/-- `stat` fails on `x`. -/
def danglingStat (name : Bytes) : Option Stat :=
  if name = [46, 47, 120] then none
  else some { stMode := .regular, executable := false, stSize := 0, stMtime := 0 }

def dangling : List Dirent := [⟨[98]⟩, ⟨[97]⟩, ⟨[120]⟩, ⟨[99]⟩]

/-- `x` stands behind `b` and `a`, and in front of `c` only. -/
theorem filter_sortList_iff_dangling :
    (sortList danglingStat createPathT dangling).filter (examinable danglingStat createPathT) =
        sortList danglingStat createPathT (dangling.filter (examinable danglingStat createPathT)) ∧
      Unhindered danglingStat createPathT dangling := by
  have hsame : (sortList danglingStat createPathT dangling).filter
      (examinable danglingStat createPathT) =
        sortList danglingStat createPathT
          (dangling.filter (examinable danglingStat createPathT)) := by
    decide +kernel
  exact ⟨hsame, (filter_sortList_iff danglingStat createPathT dangling (by decide)).mp hsame⟩

def parted : List Dirent := [⟨[98]⟩, ⟨[120]⟩, ⟨[97]⟩]

/-- The files `b` and `a` keep their order when `x` stands between them. -/
theorem parted_keeps_order :
    (sortList danglingStat createPathT parted).filter (examinable danglingStat createPathT) =
        [⟨[98]⟩, ⟨[97]⟩] ∧
      (sortList danglingStat createPathT parted).filter (examinable danglingStat createPathT) ≠
        sortList danglingStat createPathT (parted.filter (examinable danglingStat createPathT)) := by
  decide +kernel

end EmbeddedCourse.MidnightCommander
