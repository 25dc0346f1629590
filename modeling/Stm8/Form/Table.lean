import Stm8.Form

/-!
# The table of forms

Every form of every instruction, grouped by mnemonic. The order within a group
is the order in which forms are tried, so a form with a short field stands
before the form with a long one; the order of the groups settles which mnemonic
an opcode with two names is shown with.
-/

namespace Stm8

namespace Form

/-- All forms of one mnemonic. -/
structure Family where
  /-- The mnemonic in small letters. -/
  mnemonic : String
  /-- Modes and opcode of each form. -/
  variants : List (List Mode × UInt16)
  deriving Repr

/-- The forms of the family. -/
def Family.forms (f : Family) : List Form :=
  f.variants.map fun (modes, opcode) => { mnemonic := f.mnemonic, modes, opcode }

/-- The families in order. -/
def families : List Family := [
  ⟨"nop", [([], 0x9D)]⟩,
  ⟨"adc", [
    ([.reg .a, .byte], 0xA9),
    ([.reg .a, .shortMem], 0xB9),
    ([.reg .a, .longMem], 0xC9),
    ([.reg .a, .indX], 0xF9),
    ([.reg .a, .shortOffX], 0xE9),
    ([.reg .a, .longOffX], 0xD9),
    ([.reg .a, .indY], 0x90F9),
    ([.reg .a, .shortOffY], 0x90E9),
    ([.reg .a, .longOffY], 0x90D9),
    ([.reg .a, .shortOffSp], 0x19),
    ([.reg .a, .shortPtr], 0x92C9),
    ([.reg .a, .longPtr], 0x72C9),
    ([.reg .a, .shortPtrX], 0x92D9),
    ([.reg .a, .longPtrX], 0x72D9),
    ([.reg .a, .shortPtrY], 0x91D9)]⟩,
  ⟨"add", [
    ([.reg .a, .byte], 0xAB),
    ([.reg .a, .shortMem], 0xBB),
    ([.reg .a, .longMem], 0xCB),
    ([.reg .a, .indX], 0xFB),
    ([.reg .a, .shortOffX], 0xEB),
    ([.reg .a, .longOffX], 0xDB),
    ([.reg .a, .indY], 0x90FB),
    ([.reg .a, .shortOffY], 0x90EB),
    ([.reg .a, .longOffY], 0x90DB),
    ([.reg .a, .shortOffSp], 0x1B),
    ([.reg .a, .shortPtr], 0x92CB),
    ([.reg .a, .longPtr], 0x72CB),
    ([.reg .a, .shortPtrX], 0x92DB),
    ([.reg .a, .longPtrX], 0x72DB),
    ([.reg .a, .shortPtrY], 0x91DB)]⟩,
  ⟨"addw", [
    ([.reg .x, .word], 0x1C),
    ([.reg .x, .longMem], 0x72BB),
    ([.reg .x, .shortOffSp], 0x72FB),
    ([.reg .y, .word], 0x72A9),
    ([.reg .y, .longMem], 0x72B9),
    ([.reg .y, .shortOffSp], 0x72F9),
    ([.reg .sp, .byte], 0x5B)]⟩,
  ⟨"and", [
    ([.reg .a, .byte], 0xA4),
    ([.reg .a, .shortMem], 0xB4),
    ([.reg .a, .longMem], 0xC4),
    ([.reg .a, .indX], 0xF4),
    ([.reg .a, .shortOffX], 0xE4),
    ([.reg .a, .longOffX], 0xD4),
    ([.reg .a, .indY], 0x90F4),
    ([.reg .a, .shortOffY], 0x90E4),
    ([.reg .a, .longOffY], 0x90D4),
    ([.reg .a, .shortOffSp], 0x14),
    ([.reg .a, .shortPtr], 0x92C4),
    ([.reg .a, .longPtr], 0x72C4),
    ([.reg .a, .shortPtrX], 0x92D4),
    ([.reg .a, .longPtrX], 0x72D4),
    ([.reg .a, .shortPtrY], 0x91D4)]⟩,
  ⟨"bccm", [
    ([.longMem, .bit 0], 0x9011),
    ([.longMem, .bit 1], 0x9013),
    ([.longMem, .bit 2], 0x9015),
    ([.longMem, .bit 3], 0x9017),
    ([.longMem, .bit 4], 0x9019),
    ([.longMem, .bit 5], 0x901B),
    ([.longMem, .bit 6], 0x901D),
    ([.longMem, .bit 7], 0x901F)]⟩,
  ⟨"bcp", [
    ([.reg .a, .byte], 0xA5),
    ([.reg .a, .shortMem], 0xB5),
    ([.reg .a, .longMem], 0xC5),
    ([.reg .a, .indX], 0xF5),
    ([.reg .a, .shortOffX], 0xE5),
    ([.reg .a, .longOffX], 0xD5),
    ([.reg .a, .indY], 0x90F5),
    ([.reg .a, .shortOffY], 0x90E5),
    ([.reg .a, .longOffY], 0x90D5),
    ([.reg .a, .shortOffSp], 0x15),
    ([.reg .a, .shortPtr], 0x92C5),
    ([.reg .a, .longPtr], 0x72C5),
    ([.reg .a, .shortPtrX], 0x92D5),
    ([.reg .a, .longPtrX], 0x72D5),
    ([.reg .a, .shortPtrY], 0x91D5)]⟩,
  ⟨"bcpl", [
    ([.longMem, .bit 0], 0x9010),
    ([.longMem, .bit 1], 0x9012),
    ([.longMem, .bit 2], 0x9014),
    ([.longMem, .bit 3], 0x9016),
    ([.longMem, .bit 4], 0x9018),
    ([.longMem, .bit 5], 0x901A),
    ([.longMem, .bit 6], 0x901C),
    ([.longMem, .bit 7], 0x901E)]⟩,
  ⟨"break", [([], 0x8B)]⟩,
  ⟨"bres", [
    ([.longMem, .bit 0], 0x7211),
    ([.longMem, .bit 1], 0x7213),
    ([.longMem, .bit 2], 0x7215),
    ([.longMem, .bit 3], 0x7217),
    ([.longMem, .bit 4], 0x7219),
    ([.longMem, .bit 5], 0x721B),
    ([.longMem, .bit 6], 0x721D),
    ([.longMem, .bit 7], 0x721F)]⟩,
  ⟨"bset", [
    ([.longMem, .bit 0], 0x7210),
    ([.longMem, .bit 1], 0x7212),
    ([.longMem, .bit 2], 0x7214),
    ([.longMem, .bit 3], 0x7216),
    ([.longMem, .bit 4], 0x7218),
    ([.longMem, .bit 5], 0x721A),
    ([.longMem, .bit 6], 0x721C),
    ([.longMem, .bit 7], 0x721E)]⟩,
  ⟨"btjf", [
    ([.longMem, .bit 0, .relative], 0x7201),
    ([.longMem, .bit 1, .relative], 0x7203),
    ([.longMem, .bit 2, .relative], 0x7205),
    ([.longMem, .bit 3, .relative], 0x7207),
    ([.longMem, .bit 4, .relative], 0x7209),
    ([.longMem, .bit 5, .relative], 0x720B),
    ([.longMem, .bit 6, .relative], 0x720D),
    ([.longMem, .bit 7, .relative], 0x720F)]⟩,
  ⟨"btjt", [
    ([.longMem, .bit 0, .relative], 0x7200),
    ([.longMem, .bit 1, .relative], 0x7202),
    ([.longMem, .bit 2, .relative], 0x7204),
    ([.longMem, .bit 3, .relative], 0x7206),
    ([.longMem, .bit 4, .relative], 0x7208),
    ([.longMem, .bit 5, .relative], 0x720A),
    ([.longMem, .bit 6, .relative], 0x720C),
    ([.longMem, .bit 7, .relative], 0x720E)]⟩,
  ⟨"call", [
    ([.longMem], 0xCD),
    ([.indX], 0xFD),
    ([.shortOffX], 0xED),
    ([.longOffX], 0xDD),
    ([.indY], 0x90FD),
    ([.shortOffY], 0x90ED),
    ([.longOffY], 0x90DD),
    ([.shortPtr], 0x92CD),
    ([.longPtr], 0x72CD),
    ([.shortPtrX], 0x92DD),
    ([.longPtrX], 0x72DD),
    ([.shortPtrY], 0x91DD)]⟩,
  ⟨"callf", [
    ([.extMem], 0x8D),
    ([.farPtr], 0x928D)]⟩,
  ⟨"callr", [([.relative], 0xAD)]⟩,
  ⟨"ccf", [([], 0x8C)]⟩,
  ⟨"clr", [
    ([.reg .a], 0x4F),
    ([.shortMem], 0x3F),
    ([.longMem], 0x725F),
    ([.indX], 0x7F),
    ([.shortOffX], 0x6F),
    ([.longOffX], 0x724F),
    ([.indY], 0x907F),
    ([.shortOffY], 0x906F),
    ([.longOffY], 0x904F),
    ([.shortOffSp], 0x0F),
    ([.shortPtr], 0x923F),
    ([.longPtr], 0x723F),
    ([.shortPtrX], 0x926F),
    ([.longPtrX], 0x726F),
    ([.shortPtrY], 0x916F)]⟩,
  ⟨"clrw", [
    ([.reg .x], 0x5F),
    ([.reg .y], 0x905F)]⟩,
  ⟨"cp", [
    ([.reg .a, .byte], 0xA1),
    ([.reg .a, .shortMem], 0xB1),
    ([.reg .a, .longMem], 0xC1),
    ([.reg .a, .indX], 0xF1),
    ([.reg .a, .shortOffX], 0xE1),
    ([.reg .a, .longOffX], 0xD1),
    ([.reg .a, .indY], 0x90F1),
    ([.reg .a, .shortOffY], 0x90E1),
    ([.reg .a, .longOffY], 0x90D1),
    ([.reg .a, .shortOffSp], 0x11),
    ([.reg .a, .shortPtr], 0x92C1),
    ([.reg .a, .longPtr], 0x72C1),
    ([.reg .a, .shortPtrX], 0x92D1),
    ([.reg .a, .longPtrX], 0x72D1),
    ([.reg .a, .shortPtrY], 0x91D1)]⟩,
  ⟨"cpw", [
    ([.reg .x, .word], 0xA3),
    ([.reg .x, .shortMem], 0xB3),
    ([.reg .x, .longMem], 0xC3),
    ([.reg .x, .indY], 0x90F3),
    ([.reg .x, .shortOffY], 0x90E3),
    ([.reg .x, .longOffY], 0x90D3),
    ([.reg .x, .shortOffSp], 0x13),
    ([.reg .x, .shortPtr], 0x92C3),
    ([.reg .x, .longPtr], 0x72C3),
    ([.reg .x, .shortPtrY], 0x91D3),
    ([.reg .y, .word], 0x90A3),
    ([.reg .y, .shortMem], 0x90B3),
    ([.reg .y, .longMem], 0x90C3),
    ([.reg .y, .indX], 0xF3),
    ([.reg .y, .shortOffX], 0xE3),
    ([.reg .y, .longOffX], 0xD3),
    ([.reg .y, .shortPtr], 0x91C3),
    ([.reg .y, .longPtr], 0x92D3),
    ([.reg .y, .shortPtrX], 0x72D3)]⟩,
  ⟨"cpl", [
    ([.reg .a], 0x43),
    ([.shortMem], 0x33),
    ([.longMem], 0x7253),
    ([.indX], 0x73),
    ([.shortOffX], 0x63),
    ([.longOffX], 0x7243),
    ([.indY], 0x9073),
    ([.shortOffY], 0x9063),
    ([.longOffY], 0x9043),
    ([.shortOffSp], 0x03),
    ([.shortPtr], 0x9233),
    ([.longPtr], 0x7233),
    ([.shortPtrX], 0x9263),
    ([.longPtrX], 0x7263),
    ([.shortPtrY], 0x9163)]⟩,
  ⟨"cplw", [
    ([.reg .x], 0x53),
    ([.reg .y], 0x9053)]⟩,
  ⟨"dec", [
    ([.reg .a], 0x4A),
    ([.shortMem], 0x3A),
    ([.longMem], 0x725A),
    ([.indX], 0x7A),
    ([.shortOffX], 0x6A),
    ([.longOffX], 0x724A),
    ([.indY], 0x907A),
    ([.shortOffY], 0x906A),
    ([.longOffY], 0x904A),
    ([.shortOffSp], 0x0A),
    ([.shortPtr], 0x923A),
    ([.longPtr], 0x723A),
    ([.shortPtrX], 0x926A),
    ([.longPtrX], 0x726A),
    ([.shortPtrY], 0x916A)]⟩,
  ⟨"decw", [
    ([.reg .x], 0x5A),
    ([.reg .y], 0x905A)]⟩,
  ⟨"div", [
    ([.reg .x, .reg .a], 0x62),
    ([.reg .y, .reg .a], 0x9062)]⟩,
  ⟨"divw", [([.reg .x, .reg .y], 0x65)]⟩,
  ⟨"exg", [
    ([.reg .a, .reg .xl], 0x41),
    ([.reg .a, .reg .yl], 0x61),
    ([.reg .a, .longMem], 0x31)]⟩,
  ⟨"exgw", [([.reg .x, .reg .y], 0x51)]⟩,
  ⟨"halt", [([], 0x8E)]⟩,
  ⟨"inc", [
    ([.reg .a], 0x4C),
    ([.shortMem], 0x3C),
    ([.longMem], 0x725C),
    ([.indX], 0x7C),
    ([.shortOffX], 0x6C),
    ([.longOffX], 0x724C),
    ([.indY], 0x907C),
    ([.shortOffY], 0x906C),
    ([.longOffY], 0x904C),
    ([.shortOffSp], 0x0C),
    ([.shortPtr], 0x923C),
    ([.longPtr], 0x723C),
    ([.shortPtrX], 0x926C),
    ([.longPtrX], 0x726C),
    ([.shortPtrY], 0x916C)]⟩,
  ⟨"incw", [
    ([.reg .x], 0x5C),
    ([.reg .y], 0x905C)]⟩,
  ⟨"int", [([.extMem], 0x82)]⟩,
  ⟨"iret", [([], 0x80)]⟩,
  ⟨"jp", [
    ([.longMem], 0xCC),
    ([.indX], 0xFC),
    ([.shortOffX], 0xEC),
    ([.longOffX], 0xDC),
    ([.indY], 0x90FC),
    ([.shortOffY], 0x90EC),
    ([.longOffY], 0x90DC),
    ([.shortPtr], 0x92CC),
    ([.longPtr], 0x72CC),
    ([.shortPtrX], 0x92DC),
    ([.longPtrX], 0x72DC),
    ([.shortPtrY], 0x91DC)]⟩,
  ⟨"jpf", [
    ([.extMem], 0xAC),
    ([.farPtr], 0x92AC)]⟩,
  ⟨"jra", [([.relative], 0x20)]⟩,
  ⟨"jrc", [([.relative], 0x25)]⟩,
  ⟨"jreq", [([.relative], 0x27)]⟩,
  ⟨"jrf", [([.relative], 0x21)]⟩,
  ⟨"jrh", [([.relative], 0x9029)]⟩,
  ⟨"jrih", [([.relative], 0x902F)]⟩,
  ⟨"jril", [([.relative], 0x902E)]⟩,
  ⟨"jrm", [([.relative], 0x902D)]⟩,
  ⟨"jrmi", [([.relative], 0x2B)]⟩,
  ⟨"jrnc", [([.relative], 0x24)]⟩,
  ⟨"jrne", [([.relative], 0x26)]⟩,
  ⟨"jrnh", [([.relative], 0x9028)]⟩,
  ⟨"jrnm", [([.relative], 0x902C)]⟩,
  ⟨"jrnv", [([.relative], 0x28)]⟩,
  ⟨"jrpl", [([.relative], 0x2A)]⟩,
  ⟨"jrsge", [([.relative], 0x2E)]⟩,
  ⟨"jrsgt", [([.relative], 0x2C)]⟩,
  ⟨"jrsle", [([.relative], 0x2D)]⟩,
  ⟨"jrslt", [([.relative], 0x2F)]⟩,
  ⟨"jrt", [([.relative], 0x20)]⟩,
  ⟨"jruge", [([.relative], 0x24)]⟩,
  ⟨"jrugt", [([.relative], 0x22)]⟩,
  ⟨"jrule", [([.relative], 0x23)]⟩,
  ⟨"jrult", [([.relative], 0x25)]⟩,
  ⟨"jrv", [([.relative], 0x29)]⟩,
  ⟨"ld", [
    ([.reg .a, .byte], 0xA6),
    ([.reg .a, .shortMem], 0xB6),
    ([.reg .a, .longMem], 0xC6),
    ([.reg .a, .indX], 0xF6),
    ([.reg .a, .shortOffX], 0xE6),
    ([.reg .a, .longOffX], 0xD6),
    ([.reg .a, .indY], 0x90F6),
    ([.reg .a, .shortOffY], 0x90E6),
    ([.reg .a, .longOffY], 0x90D6),
    ([.reg .a, .shortOffSp], 0x7B),
    ([.reg .a, .shortPtr], 0x92C6),
    ([.reg .a, .longPtr], 0x72C6),
    ([.reg .a, .shortPtrX], 0x92D6),
    ([.reg .a, .longPtrX], 0x72D6),
    ([.reg .a, .shortPtrY], 0x91D6),
    ([.shortMem, .reg .a], 0xB7),
    ([.longMem, .reg .a], 0xC7),
    ([.indX, .reg .a], 0xF7),
    ([.shortOffX, .reg .a], 0xE7),
    ([.longOffX, .reg .a], 0xD7),
    ([.indY, .reg .a], 0x90F7),
    ([.shortOffY, .reg .a], 0x90E7),
    ([.longOffY, .reg .a], 0x90D7),
    ([.shortOffSp, .reg .a], 0x6B),
    ([.shortPtr, .reg .a], 0x92C7),
    ([.longPtr, .reg .a], 0x72C7),
    ([.shortPtrX, .reg .a], 0x92D7),
    ([.longPtrX, .reg .a], 0x72D7),
    ([.shortPtrY, .reg .a], 0x91D7),
    ([.reg .xl, .reg .a], 0x97),
    ([.reg .a, .reg .xl], 0x9F),
    ([.reg .yl, .reg .a], 0x9097),
    ([.reg .a, .reg .yl], 0x909F),
    ([.reg .xh, .reg .a], 0x95),
    ([.reg .a, .reg .xh], 0x9E),
    ([.reg .yh, .reg .a], 0x9095),
    ([.reg .a, .reg .yh], 0x909E)]⟩,
  ⟨"ldf", [
    ([.reg .a, .extMem], 0xBC),
    ([.reg .a, .extOffX], 0xAF),
    ([.reg .a, .extOffY], 0x90AF),
    ([.reg .a, .farPtrX], 0x92AF),
    ([.reg .a, .farPtrY], 0x91AF),
    ([.reg .a, .farPtr], 0x92BC),
    ([.extMem, .reg .a], 0xBD),
    ([.extOffX, .reg .a], 0xA7),
    ([.extOffY, .reg .a], 0x90A7),
    ([.farPtrX, .reg .a], 0x92A7),
    ([.farPtrY, .reg .a], 0x91A7),
    ([.farPtr, .reg .a], 0x92BD)]⟩,
  ⟨"ldw", [
    ([.reg .x, .word], 0xAE),
    ([.reg .x, .shortMem], 0xBE),
    ([.reg .x, .longMem], 0xCE),
    ([.reg .x, .indX], 0xFE),
    ([.reg .x, .shortOffX], 0xEE),
    ([.reg .x, .longOffX], 0xDE),
    ([.reg .x, .shortOffSp], 0x1E),
    ([.reg .x, .shortPtr], 0x92CE),
    ([.reg .x, .longPtr], 0x72CE),
    ([.reg .x, .shortPtrX], 0x92DE),
    ([.reg .x, .longPtrX], 0x72DE),
    ([.shortMem, .reg .x], 0xBF),
    ([.longMem, .reg .x], 0xCF),
    ([.indX, .reg .y], 0xFF),
    ([.shortOffX, .reg .y], 0xEF),
    ([.longOffX, .reg .y], 0xDF),
    ([.shortOffSp, .reg .x], 0x1F),
    ([.shortPtr, .reg .x], 0x92CF),
    ([.longPtr, .reg .x], 0x72CF),
    ([.shortPtrX, .reg .y], 0x92DF),
    ([.longPtrX, .reg .y], 0x72DF),
    ([.reg .y, .word], 0x90AE),
    ([.reg .y, .shortMem], 0x90BE),
    ([.reg .y, .longMem], 0x90CE),
    ([.reg .y, .indY], 0x90FE),
    ([.reg .y, .shortOffY], 0x90EE),
    ([.reg .y, .longOffY], 0x90DE),
    ([.reg .y, .shortOffSp], 0x16),
    ([.reg .y, .shortPtr], 0x91CE),
    ([.reg .y, .shortPtrY], 0x91DE),
    ([.shortMem, .reg .y], 0x90BF),
    ([.longMem, .reg .y], 0x90CF),
    ([.indY, .reg .x], 0x90FF),
    ([.shortOffY, .reg .x], 0x90EF),
    ([.longOffY, .reg .x], 0x90DF),
    ([.shortOffSp, .reg .y], 0x17),
    ([.shortPtr, .reg .y], 0x91CF),
    ([.shortPtrY, .reg .x], 0x91DF),
    ([.reg .y, .reg .x], 0x9093),
    ([.reg .x, .reg .y], 0x93),
    ([.reg .x, .reg .sp], 0x96),
    ([.reg .sp, .reg .x], 0x94),
    ([.reg .y, .reg .sp], 0x9096),
    ([.reg .sp, .reg .y], 0x9094)]⟩,
  ⟨"mov", [
    ([.longMem, .byte], 0x35),
    ([.shortMem, .shortMem], 0x45),
    ([.longMem, .longMem], 0x55)]⟩,
  ⟨"mul", [
    ([.reg .x, .reg .a], 0x42),
    ([.reg .y, .reg .a], 0x9042)]⟩,
  ⟨"neg", [
    ([.reg .a], 0x40),
    ([.shortMem], 0x30),
    ([.longMem], 0x7250),
    ([.indX], 0x70),
    ([.shortOffX], 0x60),
    ([.longOffX], 0x7240),
    ([.indY], 0x9070),
    ([.shortOffY], 0x9060),
    ([.longOffY], 0x9040),
    ([.shortOffSp], 0x00),
    ([.shortPtr], 0x9230),
    ([.longPtr], 0x7230),
    ([.shortPtrX], 0x9260),
    ([.longPtrX], 0x7260),
    ([.shortPtrY], 0x9160)]⟩,
  ⟨"negw", [
    ([.reg .x], 0x50),
    ([.reg .y], 0x9050)]⟩,
  ⟨"or", [
    ([.reg .a, .byte], 0xAA),
    ([.reg .a, .shortMem], 0xBA),
    ([.reg .a, .longMem], 0xCA),
    ([.reg .a, .indX], 0xFA),
    ([.reg .a, .shortOffX], 0xEA),
    ([.reg .a, .longOffX], 0xDA),
    ([.reg .a, .indY], 0x90FA),
    ([.reg .a, .shortOffY], 0x90EA),
    ([.reg .a, .longOffY], 0x90DA),
    ([.reg .a, .shortOffSp], 0x1A),
    ([.reg .a, .shortPtr], 0x92CA),
    ([.reg .a, .longPtr], 0x72CA),
    ([.reg .a, .shortPtrX], 0x92DA),
    ([.reg .a, .longPtrX], 0x72DA),
    ([.reg .a, .shortPtrY], 0x91DA)]⟩,
  ⟨"pop", [
    ([.reg .a], 0x84),
    ([.reg .cc], 0x86),
    ([.longMem], 0x32)]⟩,
  ⟨"popw", [
    ([.reg .x], 0x85),
    ([.reg .y], 0x9085)]⟩,
  ⟨"push", [
    ([.reg .a], 0x88),
    ([.reg .cc], 0x8A),
    ([.byte], 0x4B),
    ([.longMem], 0x3B)]⟩,
  ⟨"pushw", [
    ([.reg .x], 0x89),
    ([.reg .y], 0x9089)]⟩,
  ⟨"rcf", [([], 0x98)]⟩,
  ⟨"ret", [([], 0x81)]⟩,
  ⟨"retf", [([], 0x87)]⟩,
  ⟨"rim", [([], 0x9A)]⟩,
  ⟨"rlc", [
    ([.reg .a], 0x49),
    ([.shortMem], 0x39),
    ([.longMem], 0x7259),
    ([.indX], 0x79),
    ([.shortOffX], 0x69),
    ([.longOffX], 0x7249),
    ([.indY], 0x9079),
    ([.shortOffY], 0x9069),
    ([.longOffY], 0x9049),
    ([.shortOffSp], 0x09),
    ([.shortPtr], 0x9239),
    ([.longPtr], 0x7239),
    ([.shortPtrX], 0x9269),
    ([.longPtrX], 0x7269),
    ([.shortPtrY], 0x9169)]⟩,
  ⟨"rlcw", [
    ([.reg .x], 0x59),
    ([.reg .y], 0x9059)]⟩,
  ⟨"rlwa", [
    ([.reg .x, .reg .a], 0x02),
    ([.reg .y, .reg .a], 0x9002)]⟩,
  ⟨"rrc", [
    ([.reg .a], 0x46),
    ([.shortMem], 0x36),
    ([.longMem], 0x7256),
    ([.indX], 0x76),
    ([.shortOffX], 0x66),
    ([.longOffX], 0x7246),
    ([.indY], 0x9076),
    ([.shortOffY], 0x9066),
    ([.longOffY], 0x9046),
    ([.shortOffSp], 0x06),
    ([.shortPtr], 0x9236),
    ([.longPtr], 0x7236),
    ([.shortPtrX], 0x9266),
    ([.longPtrX], 0x7266),
    ([.shortPtrY], 0x9166)]⟩,
  ⟨"rrcw", [
    ([.reg .x], 0x56),
    ([.reg .y], 0x9056)]⟩,
  ⟨"rrwa", [
    ([.reg .x, .reg .a], 0x01),
    ([.reg .y, .reg .a], 0x9001)]⟩,
  ⟨"rvf", [([], 0x9C)]⟩,
  ⟨"sbc", [
    ([.reg .a, .byte], 0xA2),
    ([.reg .a, .shortMem], 0xB2),
    ([.reg .a, .longMem], 0xC2),
    ([.reg .a, .indX], 0xF2),
    ([.reg .a, .shortOffX], 0xE2),
    ([.reg .a, .longOffX], 0xD2),
    ([.reg .a, .indY], 0x90F2),
    ([.reg .a, .shortOffY], 0x90E2),
    ([.reg .a, .longOffY], 0x90D2),
    ([.reg .a, .shortOffSp], 0x12),
    ([.reg .a, .shortPtr], 0x92C2),
    ([.reg .a, .longPtr], 0x72C2),
    ([.reg .a, .shortPtrX], 0x92D2),
    ([.reg .a, .longPtrX], 0x72D2),
    ([.reg .a, .shortPtrY], 0x91D2)]⟩,
  ⟨"scf", [([], 0x99)]⟩,
  ⟨"sim", [([], 0x9B)]⟩,
  ⟨"sll", [
    ([.reg .a], 0x48),
    ([.shortMem], 0x38),
    ([.longMem], 0x7258),
    ([.indX], 0x78),
    ([.shortOffX], 0x68),
    ([.longOffX], 0x7248),
    ([.indY], 0x9078),
    ([.shortOffY], 0x9068),
    ([.longOffY], 0x9048),
    ([.shortOffSp], 0x08),
    ([.shortPtr], 0x9238),
    ([.longPtr], 0x7238),
    ([.shortPtrX], 0x9268),
    ([.longPtrX], 0x7268),
    ([.shortPtrY], 0x9168)]⟩,
  ⟨"sllw", [
    ([.reg .x], 0x58),
    ([.reg .y], 0x9058)]⟩,
  ⟨"sla", [
    ([.reg .a], 0x48),
    ([.shortMem], 0x38),
    ([.longMem], 0x7258),
    ([.indX], 0x78),
    ([.shortOffX], 0x68),
    ([.longOffX], 0x7248),
    ([.indY], 0x9078),
    ([.shortOffY], 0x9068),
    ([.longOffY], 0x9048),
    ([.shortOffSp], 0x08),
    ([.shortPtr], 0x9238),
    ([.longPtr], 0x7238),
    ([.shortPtrX], 0x9268),
    ([.longPtrX], 0x7268),
    ([.shortPtrY], 0x9168)]⟩,
  ⟨"slaw", [
    ([.reg .x], 0x58),
    ([.reg .y], 0x9058)]⟩,
  ⟨"sra", [
    ([.reg .a], 0x47),
    ([.shortMem], 0x37),
    ([.longMem], 0x7257),
    ([.indX], 0x77),
    ([.shortOffX], 0x67),
    ([.longOffX], 0x7247),
    ([.indY], 0x9077),
    ([.shortOffY], 0x9067),
    ([.longOffY], 0x9047),
    ([.shortOffSp], 0x07),
    ([.shortPtr], 0x9237),
    ([.longPtr], 0x7237),
    ([.shortPtrX], 0x9267),
    ([.longPtrX], 0x7267),
    ([.shortPtrY], 0x9167)]⟩,
  ⟨"sraw", [
    ([.reg .x], 0x57),
    ([.reg .y], 0x9057)]⟩,
  ⟨"srl", [
    ([.reg .a], 0x44),
    ([.shortMem], 0x34),
    ([.longMem], 0x7254),
    ([.indX], 0x74),
    ([.shortOffX], 0x64),
    ([.longOffX], 0x7244),
    ([.indY], 0x9074),
    ([.shortOffY], 0x9064),
    ([.longOffY], 0x9044),
    ([.shortOffSp], 0x04),
    ([.shortPtr], 0x9234),
    ([.longPtr], 0x7234),
    ([.shortPtrX], 0x9264),
    ([.longPtrX], 0x7264),
    ([.shortPtrY], 0x9164)]⟩,
  ⟨"srlw", [
    ([.reg .x], 0x54),
    ([.reg .y], 0x9054)]⟩,
  ⟨"sub", [
    ([.reg .a, .byte], 0xA0),
    ([.reg .a, .shortMem], 0xB0),
    ([.reg .a, .longMem], 0xC0),
    ([.reg .a, .indX], 0xF0),
    ([.reg .a, .shortOffX], 0xE0),
    ([.reg .a, .longOffX], 0xD0),
    ([.reg .a, .indY], 0x90F0),
    ([.reg .a, .shortOffY], 0x90E0),
    ([.reg .a, .longOffY], 0x90D0),
    ([.reg .a, .shortOffSp], 0x10),
    ([.reg .a, .shortPtr], 0x92C0),
    ([.reg .a, .longPtr], 0x72C0),
    ([.reg .a, .shortPtrX], 0x92D0),
    ([.reg .a, .longPtrX], 0x72D0),
    ([.reg .a, .shortPtrY], 0x91D0),
    ([.reg .sp, .byte], 0x52)]⟩,
  ⟨"subw", [
    ([.reg .x, .word], 0x1D),
    ([.reg .x, .longMem], 0x72B0),
    ([.reg .x, .shortOffSp], 0x72F0),
    ([.reg .y, .word], 0x72A2),
    ([.reg .y, .longMem], 0x72B2),
    ([.reg .y, .shortOffSp], 0x72F2)]⟩,
  ⟨"swap", [
    ([.reg .a], 0x4E),
    ([.shortMem], 0x3E),
    ([.longMem], 0x725E),
    ([.indX], 0x7E),
    ([.shortOffX], 0x6E),
    ([.longOffX], 0x724E),
    ([.indY], 0x907E),
    ([.shortOffY], 0x906E),
    ([.longOffY], 0x904E),
    ([.shortOffSp], 0x0E),
    ([.shortPtr], 0x923E),
    ([.longPtr], 0x723E),
    ([.shortPtrX], 0x926E),
    ([.longPtrX], 0x726E),
    ([.shortPtrY], 0x916E)]⟩,
  ⟨"swapw", [
    ([.reg .x], 0x5E),
    ([.reg .y], 0x905E)]⟩,
  ⟨"tnz", [
    ([.reg .a], 0x4D),
    ([.shortMem], 0x3D),
    ([.longMem], 0x725D),
    ([.indX], 0x7D),
    ([.shortOffX], 0x6D),
    ([.longOffX], 0x724D),
    ([.indY], 0x907D),
    ([.shortOffY], 0x906D),
    ([.longOffY], 0x904D),
    ([.shortOffSp], 0x0D),
    ([.shortPtr], 0x923D),
    ([.longPtr], 0x723D),
    ([.shortPtrX], 0x926D),
    ([.longPtrX], 0x726D),
    ([.shortPtrY], 0x916D)]⟩,
  ⟨"tnzw", [
    ([.reg .x], 0x5D),
    ([.reg .y], 0x905D)]⟩,
  ⟨"trap", [([], 0x83)]⟩,
  ⟨"wfe", [([], 0x728F)]⟩,
  ⟨"wfi", [([], 0x8F)]⟩,
  ⟨"xor", [
    ([.reg .a, .byte], 0xA8),
    ([.reg .a, .shortMem], 0xB8),
    ([.reg .a, .longMem], 0xC8),
    ([.reg .a, .indX], 0xF8),
    ([.reg .a, .shortOffX], 0xE8),
    ([.reg .a, .longOffX], 0xD8),
    ([.reg .a, .indY], 0x90F8),
    ([.reg .a, .shortOffY], 0x90E8),
    ([.reg .a, .longOffY], 0x90D8),
    ([.reg .a, .shortOffSp], 0x18),
    ([.reg .a, .shortPtr], 0x92C8),
    ([.reg .a, .longPtr], 0x72C8),
    ([.reg .a, .shortPtrX], 0x92D8),
    ([.reg .a, .longPtrX], 0x72D8),
    ([.reg .a, .shortPtrY], 0x91D8)]⟩]

/-- All forms in the order of the table. -/
def all : List Form :=
  families.flatMap Family.forms

end Form

end Stm8
