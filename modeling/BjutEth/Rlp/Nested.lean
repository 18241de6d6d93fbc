import BjutEth.Rlp.Scalars

namespace BjutEth.Rlp

open List

namespace Stream

variable {α T : Type}

variable {s s' : Stream} {size n : ℕ} {lvl : Level} {tail c : Bytes} {outer : List ListPos} {r : Bool}
variable {as : List α}

theorem list_eq_kindAhead {kind : StreamKind} (h : s.kindAhead = .ok (kind, size) s') :
    s.list = if kind = .list then
        .ok size { s' with stack := ⟨0, size⟩ :: s'.stack, kind := none, size := 0 }
      else .error .expectedList s' := by
  rw [list, bind_ok h]
  cases kind <;> rfl

theorem armed_pushed {b : UInt8} (content rest : Bytes) (hsize : size = content.length)
    (hp : Peeked s .list size b lvl (content ++ rest) tail) :
    Armed { s with stack := ⟨0, size⟩ :: s.stack, kind := none, size := 0 }
      (.inside content.length (lvl.stack (content ++ rest).length)) content (rest ++ tail) where
  input := by
    rw [hp.input, List.append_assoc]
  remaining := hp.remaining
  stack := by
    rw [hp.stack, hsize, Level.stack, Nat.sub_self]
  bound size' outer h := by
    cases h
    exact le_rfl
  top h := by cases h
  kind := rfl

structure Room (lvl : Level) (n : ℕ) (tail : Bytes) : Prop where
  bound : ∀ size outer, lvl = .inside size outer → n ≤ size
  top : lvl = .top → tail = []

theorem listEnd_of_nil {rest : Bytes} (hroom : Room lvl (n + rest.length) tail)
    (hp : Placed s (.inside n (lvl.stack (n + rest.length))) [] (rest ++ tail)) :
    ∃ s', s.listEnd = .ok () s' ∧ Armed s' lvl rest tail := by
  have hstk : s.stack = ⟨n, n⟩ :: lvl.stack (n + rest.length) := hp.stack
  simp only [listEnd, hstk, ne_eq]
  refine ⟨_, rfl, ?_⟩
  refine { input := ?_, remaining := hp.remaining, stack := ?_, bound := ?_, top := hroom.top,
           kind := rfl }
  · exact hp.input
  · cases lvl with
    | top => rfl
    | inside size outer =>
      have hle := hroom.bound size outer rfl
      simp only [Level.stack]
      rw [show size - (n + rest.length) + n = size - rest.length by omega]
  intro size outer hlvl
  have := hroom.bound size outer hlvl
  omega

theorem listEnd_eq_ok (hp : Placed s (.inside n outer) c tail) (h : s.listEnd = .ok () s') : c = [] := by
  have hstk : s.stack = ⟨n - c.length, n⟩ :: outer := hp.stack
  have hle := hp.bound n outer rfl
  simp only [listEnd, hstk] at h
  split at h
  · cases h
  next hpos =>
  apply length_eq_zero_iff.mp
  omega

theorem listEnd_ne_eol : s.listEnd ≠ .error .eol s' := by
  intro h
  unfold listEnd at h
  split at h
  · cases h
  split at h
  · cases h
  · cases h

/-- `inner` reads the content of a list: what it returns is meant by the content if it reads
all of it. -/
structure SoundIn (inner : ℕ → Dec α) (means : α → Bytes → Prop) : Prop where
  ok : ∀ {s n outer content tail a s'}, content.length = n →
    Armed s (.inside n outer) content tail → inner n s = .ok a s' →
    ∃ r rest, Sees s' r (.inside n outer) rest tail ∧ (rest = [] → means a content)
  eol : ∀ {s n outer content tail s'}, content.length = n →
    Armed s (.inside n outer) content tail → inner n s ≠ .error .eol s'

structure CompleteIn (inner : ℕ → Dec α) (means : α → Bytes → Prop) : Prop where
  ok : ∀ {s n outer content tail a}, content.length = n → n + 1 < 2 ^ 64 →
    Armed s (.inside n outer) content tail → means a content →
    ∃ r s', inner n s = .ok a s' ∧ Sees s' r (.inside n outer) [] tail

def IsList (means : α → Bytes → Prop) (a : α) (b : Bytes) : Prop :=
  ∃ content, means a content ∧ b = frame .list content

variable {inner : ℕ → Dec α} {means : α → Bytes → Prop}

theorem inList_eq {t : Stream} (h : s.list = .ok size t) :
    inList inner s = (inner size >>= fun a ↦ listEnd >>= fun _ ↦ pure a) t := by
  rw [inList, bind_ok h]

theorem list_cases {v : Bytes} (hs : Facing s lvl v tail) :
    (∃ content rest t, s.list = .ok content.length t ∧
      v = frame .list content ++ rest ∧
      Armed t (.inside content.length (lvl.stack (content.length + rest.length))) content
        (rest ++ tail) ∧ Room lvl (content.length + rest.length) tail) ∨
    (∃ t, s.list = .error .eol t ∧ v = [] ∧ lvl ≠ .top ∧ Armed t lvl [] tail) ∨
    ∃ e t, s.list = .error e t ∧ e ≠ .eol := by
  rcases hs.kindAhead_cases with ⟨hd, t, hhd, hsize, hk, hp⟩ | ⟨t, hk, hv, hlvl, ha⟩ |
    ⟨e, t, hk, he⟩
  · by_cases hlist : hd.kind = .list
    · left
      have hspl := take_append_drop hd.size hd.rest
      have hlen : hd.size = (hd.rest.take hd.size).length := (length_take_of_le hsize).symm
      have hpush := armed_pushed (hd.rest.take hd.size) (hd.rest.drop hd.size)
        hlen (by rw [hspl, ← hlist]; exact hp)
      have htot : (hd.rest.take hd.size).length + (hd.rest.drop hd.size).length =
          hd.rest.length := by rw [← length_append, hspl]
      rw [length_append] at hpush
      refine ⟨_, _, _, ?_, eq_frame_of_headerOf_list hhd hlist hsize, hpush, ?_⟩
      · rw [list_eq_kindAhead hk, if_pos hlist, ← hlen]
      rw [htot]
      exact ⟨hp.bound, hp.top⟩
    right
    right
    exact ⟨_, _, (list_eq_kindAhead hk).trans (if_neg hlist), by decide⟩
  · exact .inr (.inl ⟨t, bind_error _ hk, hv, hlvl, ha⟩)
  · exact .inr (.inr ⟨e, t, bind_error _ hk, he⟩)

theorem list_of_frame {content rest : Bytes} (hs : Facing s lvl (frame .list content ++ rest) tail)
    (hlen : (frame .list content).length < 2 ^ 64) :
    ∃ t, s.list = .ok content.length t ∧
      Armed t (.inside content.length (lvl.stack (content.length + rest.length))) content
        (rest ++ tail) ∧ Room lvl (content.length + rest.length) tail := by
  have hlen := (length_le_length_frame .list content).trans_lt hlen
  obtain ⟨hd, hhd, hcs⟩ := headerOf_frame .list rest hlen
  obtain ⟨hk, hsize, -, hrest⟩ := hcs.resolve_left (fun h ↦ Kind.noConfusion h.1)
  have hle : hd.size ≤ hd.rest.length := by
    rw [hsize, hrest, length_append]
    exact Nat.le_add_right _ _
  obtain ⟨t, ht, hp⟩ := hs.kindAhead_of_some hhd hle
  rw [hrest, hk] at hp
  have hpush := armed_pushed _ _ hsize hp
  rw [length_append] at hpush
  refine ⟨_, ?_, hpush, ?_⟩
  · rw [list_eq_kindAhead ht, if_pos hk, hsize]
  rw [← length_append]
  exact ⟨hp.bound, hp.top⟩

theorem length_lt_length_frame_list (content : Bytes) :
    content.length + 1 ≤ (frame .list content).length := by
  have hne : puthead .list content.length ≠ [] := by
    unfold puthead
    split <;> exact cons_ne_nil _ _
  have hpos := length_pos_iff.mpr hne
  rw [frame, if_neg (by simp [isSingleByte]), length_append]
  omega

theorem sound_inList (h : SoundIn inner means) :
    Sound (inList inner) (IsList means) (fun _ ↦ false) where
  ok {s lvl v tail a s'} hs hd := by
    rcases list_cases hs with ⟨content, rest, t, hl, hview, ha, hroom⟩ | ⟨t, hl, -⟩ | ⟨e, t, hl, -⟩
    · rw [inList_eq hl] at hd
      obtain ⟨v, u, hi, hd⟩ := ok_of_bind hd
      obtain ⟨x, w, he, hd⟩ := ok_of_bind hd
      cases hd
      obtain ⟨r', rest', hsee, hmean⟩ := h.ok rfl ha hi
      obtain rfl := listEnd_eq_ok hsee.placed he
      obtain ⟨w', hw', harmed⟩ := listEnd_of_nil hroom hsee.placed
      obtain rfl : w' = s' := by
        rw [he] at hw'
        cases hw'
        rfl
      exact ⟨_, rest, ⟨content, hmean rfl, rfl⟩, hview, harmed⟩
    · rw [inList, bind_error _ hl] at hd
      cases hd
    · rw [inList, bind_error _ hl] at hd
      cases hd
  eol {s lvl v tail s'} hs hd := by
    rcases list_cases hs with ⟨content, rest, t, hl, hview, ha, hroom⟩ | ⟨t, hl, hend⟩ | ⟨e, t, hl, he⟩
    · rw [inList_eq hl] at hd
      rcases error_of_bind hd with hi | ⟨v, u, -, hd⟩
      · exact absurd hi (h.eol rfl ha)
      rcases error_of_bind hd with he | ⟨x, w, -, hd⟩
      · exact absurd he listEnd_ne_eol
      · cases hd
    · rw [inList, bind_error _ hl] at hd
      cases hd
      exact hend
    rw [inList, bind_error _ hl] at hd
    cases hd
    exact absurd rfl he

theorem complete_inList (h : CompleteIn inner means) :
    Complete (inList inner) (IsList means) (fun _ ↦ false) where
  ok {s lvl tail a b rest} hs hmean hlen := by
    obtain ⟨content, hmean, rfl⟩ := hmean
    obtain ⟨t, hl, ha, hroom⟩ := list_of_frame hs hlen
    have hlen := (length_lt_length_frame_list content).trans_lt hlen
    obtain ⟨r', u, hi, hsee⟩ := h.ok rfl hlen ha hmean
    obtain ⟨s', he, harmed⟩ := listEnd_of_nil hroom hsee.placed
    refine ⟨s', ?_, harmed⟩
    rw [inList_eq hl, bind_ok hi, bind_ok he]
    rfl
  eol {s size outer tail} ha := by
    obtain ⟨s', hk, ha'⟩ := ha.kindAhead_end
    exact ⟨s', bind_error _ (bind_error _ hk), ha'⟩

theorem length_view_le (r : Bool) (c : Bytes) : (view r c).length ≤ c.length + 1 := by
  cases r with
  | false => exact Nat.le_succ _
  | true => exact le_rfl

theorem view_eq_nil (h : view r c = []) : r = false ∧ c = [] := by
  cases r with
  | false => exact ⟨rfl, h⟩
  | true => cases h

/-- The values of the fields, read one after the other off the content of a list. A field
after a zero byte that was not taken sees it again. -/
def FieldsMean (means : T → α → Bytes → Prop) (again : α → Bool) :
    Bool → List T → List α → Bytes → Prop
  | _, [], [], c => c = []
  | r, f :: fs, a :: as, c =>
    ∃ b rest, means f a b ∧ view r c = b ++ rest ∧ FieldsMean means again (again a) fs as rest
  | _, _, _, _ => False

def ElemsMean (means : α → Bytes → Prop) (again : α → Bool) : Bool → List α → Bytes → Prop
  | r, [], c => r = false ∧ c = []
  | r, a :: as, c =>
    ∃ b rest, means a b ∧ view r c = b ++ rest ∧ ElemsMean means again (again a) as rest

section Fields

variable {dec : T → Dec α} {means : T → α → Bytes → Prop} {again : α → Bool}

theorem notEOL_eq_ok {d : Dec α} {a : α} : notEOL d s = .ok a s' ↔ d s = .ok a s' := by
  unfold notEOL
  cases d s with
  | ok b t => exact Iff.rfl
  | error e t => constructor <;> simp

theorem notEOL_ne_eol {d : Dec α} : notEOL d s ≠ .error .eol s' := by
  intro h
  unfold notEOL at h
  cases hd : d s with
  | ok b t =>
    rw [hd] at h
    cases h
  | error e t =>
    simp only [hd] at h
    by_cases he : e = .eol
    · rw [if_pos he] at h
      cases h
    rw [if_neg he] at h
    cases h
    exact he rfl

theorem structFields_ok (h : ∀ f, Sound (dec f) (means f) again) (fs : List T) (hs : Sees s r lvl c tail)
    (hd : structFields dec fs s = .ok as s') :
    ∃ r' rest, Sees s' r' lvl rest tail ∧ (rest = [] → FieldsMean means again r fs as c) := by
  induction fs generalizing s r c as with
  | nil =>
    cases hd
    exact ⟨r, c, hs, fun h ↦ h⟩
  | cons f fs ih =>
    obtain ⟨a, t, hf, hd⟩ := ok_of_bind hd
    obtain ⟨as, u, hfs, hd⟩ := ok_of_bind hd
    cases hd
    obtain ⟨b, rest, hm, hview, hsee⟩ := (h f).ok hs.facing (notEOL_eq_ok.mp hf)
    obtain ⟨r', rest', hsee', hmean⟩ := ih hsee hfs
    exact ⟨r', rest', hsee', fun he ↦ ⟨b, rest, hm, hview, hmean he⟩⟩

theorem structFields_ne_eol (fs : List T) : structFields dec fs s ≠ .error .eol s' := by
  intro hd
  induction fs generalizing s with
  | nil => cases hd
  | cons f fs ih =>
    rcases error_of_bind hd with hf | ⟨a, t, -, hd⟩
    · exact notEOL_ne_eol hf
    rcases error_of_bind hd with hfs | ⟨as, u, -, hd⟩
    · exact ih hfs
    · cases hd

theorem soundIn_structFields (h : ∀ f, Sound (dec f) (means f) again) (fs : List T) :
    SoundIn (fun _ ↦ structFields dec fs) (FieldsMean means again false fs) where
  ok _ ha hd := structFields_ok h fs ha.sees hd
  eol _ _ := structFields_ne_eol fs

theorem structFields_complete (h : ∀ f, Reads (dec f) (means f) again) (fs : List T) (hn : n + 1 < 2 ^ 64)
    (hs : Sees s r (.inside n outer) c tail) (hm : FieldsMean means again r fs as c) :
    ∃ r' s', structFields dec fs s = .ok as s' ∧ Sees s' r' (.inside n outer) [] tail := by
  induction fs generalizing s r c as with
  | nil =>
    cases as with
    | nil =>
      obtain rfl : c = [] := hm
      exact ⟨r, s, rfl, hs⟩
    | cons a as => cases hm
  | cons f fs ih =>
    cases as with
    | nil => cases hm
    | cons a as =>
      obtain ⟨b, rest, hb, hview, hrest⟩ := hm
      have hbound := hs.placed.bound n outer rfl
      have hlen : b.length < 2 ^ 64 := by
        have h1 := congrArg List.length hview
        have h2 := length_view_le r c
        rw [length_append] at h1
        omega
      obtain ⟨t, ht, hsee⟩ := (h f).ok (hview ▸ hs.facing) hb hlen
      obtain ⟨r', s', hs', hsee'⟩ := ih hsee hrest
      refine ⟨r', s', ?_, hsee'⟩
      rw [structFields, bind_ok (notEOL_eq_ok.mpr ht), bind_ok hs']
      rfl

theorem completeIn_structFields (h : ∀ f, Reads (dec f) (means f) again) (fs : List T) :
    CompleteIn (fun _ ↦ structFields dec fs) (FieldsMean means again false fs) where
  ok _ hn ha hm := structFields_complete h fs hn ha.sees hm

end Fields

section Elems

variable {elemdec : Dec α} {means : α → Bytes → Prop} {again : α → Bool}

variable {fuel : ℕ}

theorem sliceElems_ok (h : Sound elemdec means again) (hs : Sees s r (.inside n outer) c tail)
    (hd : sliceElems elemdec fuel s = .ok as s') :
    Armed s' (.inside n outer) [] tail ∧ ElemsMean means again r as c := by
  induction fuel generalizing s r c as with
  | zero => cases hd
  | succ fuel ih =>
    simp only [sliceElems] at hd
    cases he : elemdec s with
    | error e t =>
      simp only [he] at hd
      split at hd
      · next heol =>
        cases hd
        subst heol
        obtain ⟨hv, -, ha⟩ := h.eol hs.facing he
        exact ⟨ha, view_eq_nil hv⟩
      · cases hd
    | ok a t =>
      simp only [he] at hd
      obtain ⟨as, u, hrec, hd⟩ := ok_of_bind hd
      cases hd
      obtain ⟨b, rest, hm, hview, hsee⟩ := h.ok hs.facing he
      obtain ⟨ha, hmean⟩ := ih hsee hrec
      exact ⟨ha, b, rest, hm, hview, hmean⟩

theorem sliceElems_ne_eol : sliceElems elemdec fuel s ≠ .error .eol s' := by
  intro hd
  induction fuel generalizing s with
  | zero => cases hd
  | succ fuel ih =>
    simp only [sliceElems] at hd
    cases he : elemdec s with
    | error e t =>
      simp only [he] at hd
      split at hd
      · cases hd
      next hne =>
      cases hd
      exact hne rfl
    | ok a t =>
      simp only [he] at hd
      rcases error_of_bind hd with hrec | ⟨as, u, -, hd⟩
      · exact ih hrec
      · cases hd

theorem sound_listSlice (h : Sound elemdec means again) (fuel : ℕ) :
    Sound (listSlice elemdec fuel) (IsList (ElemsMean means again false)) (fun _ ↦ false) := by
  refine sound_inList ⟨?_, ?_⟩
  · intro s n outer content tail as s' hlen ha hd
    split at hd
    · next hn =>
      cases hd
      obtain rfl : content = [] := length_eq_zero_iff.mp (hlen.trans hn)
      exact ⟨false, [], ha, fun _ ↦ ⟨rfl, rfl⟩⟩
    · obtain ⟨ha', hm⟩ := sliceElems_ok h ha.sees hd
      exact ⟨false, [], ha', fun _ ↦ hm⟩
  intro s n outer content tail s' hlen ha hd
  split at hd
  · cases hd
  · exact sliceElems_ne_eol hd

theorem sliceElems_complete (h : Complete elemdec means again) (hn : n + 1 < 2 ^ 64)
    (hs : Sees s r (.inside n outer) c tail) (hm : ElemsMean means again r as c) (hfuel : as.length < fuel) :
    ∃ s', sliceElems elemdec fuel s = .ok as s' ∧ Armed s' (.inside n outer) [] tail := by
  induction fuel generalizing s r c as with
  | zero => exact absurd hfuel (Nat.not_lt_zero _)
  | succ fuel ih =>
    cases as with
    | nil =>
      obtain ⟨rfl, rfl⟩ := hm
      obtain ⟨s', he, ha⟩ := h.eol hs
      refine ⟨s', ?_, ha⟩
      simp only [sliceElems, he, if_true]
    | cons a as =>
      obtain ⟨b, rest, hb, hview, hrest⟩ := hm
      have hbound := hs.placed.bound n outer rfl
      have hlen : b.length < 2 ^ 64 := by
        have h1 := congrArg List.length hview
        have h2 := length_view_le r c
        rw [length_append] at h1
        omega
      obtain ⟨t, ht, hsee⟩ := h.ok (hview ▸ hs.facing) hb hlen
      obtain ⟨s', hs', ha⟩ := ih hsee hrest (Nat.lt_of_succ_lt_succ hfuel)
      refine ⟨s', ?_, ha⟩
      simp only [sliceElems, ht]
      rw [bind_ok hs']
      rfl

theorem complete_listSlice (h : Complete elemdec means again) (fuel : ℕ) :
    Complete (listSlice elemdec fuel)
      (IsList (fun as c ↦ as.length < fuel ∧ ElemsMean means again false as c))
      (fun _ ↦ false) := by
  refine complete_inList ⟨?_⟩
  intro s n outer content tail as hlen hn ha hm
  split
  · next h0 =>
    obtain rfl : content = [] := length_eq_zero_iff.mp (hlen.trans h0)
    cases as with
    | nil => exact ⟨false, s, rfl, ha⟩
    | cons a as =>
      -- an element would be read where the end of the list is
      obtain ⟨b, rest, hb, hview, -⟩ := hm.2
      obtain ⟨rfl, -⟩ := append_eq_nil_iff.mp hview.symm
      obtain ⟨t, ht, -⟩ := h.ok (.inl ha) hb (by decide)
      obtain ⟨t', ht', -⟩ := h.eol ha
      rw [ht] at ht'
      cases ht'
  · obtain ⟨s', hs', ha'⟩ := sliceElems_complete h hn ha.sees hm.2 hm.1
    exact ⟨false, s', hs', ha'⟩

end Elems

end Stream

end BjutEth.Rlp
